import Barrage.Proofs.Expr.Readers
import Barrage.Proofs.Source.Cutting

/-!
# Reading source text

The tokens of a part are read as the expression that the part stands for. A reader that is given some room
succeeds exactly if the part takes no more levels than that, whatever the part is made of, and otherwise
finds that the text is nested too deeply. How loosely a part binds decides which readers read it, and the
token after it decides that they stop there.

A chain of operators is read from the left, and every further operand has less room. So what is shown of the
left part of a chain is what its reader has come to when it stands behind that part, not a result.

## Main definitions

* `Expr.Parse.Agrees` — a reader gives what another one gives, if there is room
* `Expr.Input.Leads` — the tokens between two places of a text
* `Surface.IsRead` — a part is read as the expression it stands for

## Main results

* `Surface.WellFormed.isRead` — every part that can be read is
* `Surface.WellFormed.parse_text` — and so is its text
* `Expr.Writable.parseIn_text` — reading inverts writing
-/

namespace Barrage

namespace Expr

/-! ### Outcomes -/

namespace Parse

/-- With enough room a reader gives what another one gives, and otherwise it finds that the text is nested too
deeply. -/
structure Agrees {α : Type} (hosts : Hosts) (fits : Prop) (p q : Parse α) : Prop where
  of_fits : fits → p.run.run hosts = q.run.run hosts
  of_not_fits : ¬fits → ∃ offset, p.run.run hosts = (.error ⟨offset, .tooDeep⟩, hosts)

namespace Agrees

variable {α β : Type} {hosts : Hosts} {A B : Prop} {p q r : Parse α}

theorem of_run (h : p.run.run hosts = q.run.run hosts) (hA : A) : Agrees hosts A p q :=
  ⟨fun _ => h, fun hnot => absurd hA hnot⟩

theorem refl (p : Parse α) (hA : A) : Agrees hosts A p p := of_run rfl hA

theorem fail (i : Input) (hA : ¬A) : Agrees hosts A (i.fail .tooDeep) q :=
  ⟨fun h => absurd h hA, fun _ => ⟨i.offset, rfl⟩⟩

theorem congr (h : Agrees hosts A p q) (hiff : A ↔ B) : Agrees hosts B p q :=
  ⟨fun hB => h.of_fits (hiff.2 hB), fun hB => h.of_not_fits fun hA => hB (hiff.1 hA)⟩

theorem trans (h : Agrees hosts A p q) (h' : Agrees hosts B q r) : Agrees hosts (A ∧ B) p r := by
  refine ⟨fun hfits => (h.of_fits hfits.1).trans (h'.of_fits hfits.2), fun hfits => ?_⟩
  by_cases hA : A
  · obtain ⟨offset, hq⟩ := h'.of_not_fits fun hB => hfits ⟨hA, hB⟩
    exact ⟨offset, (h.of_fits hA).trans hq⟩
  · exact h.of_not_fits hA

theorem bind {a : α} {f : α → Parse β} {q : Parse β} (h : Agrees hosts A p (pure a))
    (h' : Agrees hosts B (f a) q) : Agrees hosts (A ∧ B) (p >>= f) q := by
  refine trans (q := f a) ⟨fun hA => run_bind_of_ok (h.of_fits hA), fun hA => ?_⟩ h'
  obtain ⟨offset, hp⟩ := h.of_not_fits hA
  exact ⟨offset, run_bind_of_error hp⟩

/-- What follows a part that is read. -/
theorem after {a : α} {f : α → Parse β} {q : Parse β} (h : Agrees hosts A p (pure a)) (hf : f a = q) :
    Agrees hosts A (p >>= f) q := by
  subst hf
  exact (h.bind (refl (f a) trivial)).congr (by rw [and_true])

end Agrees

end Parse

/-! ### Places of a text -/

namespace Input

/-- Some tokens stand between two places of a text. -/
inductive Leads : List Spelling → Input → Input → Prop where
  | nil (i : Input) : Leads [] i i
  | cons {t : Spelling} {ts : List Spelling} {l : Lexeme} {ls : List Lexeme} {finish : Nat} {i : Input}
      (h : l.token = t.token) (hrest : Leads ts ⟨ls, finish⟩ i) : Leads (t :: ts) ⟨l :: ls, finish⟩ i

variable {i i' : Input} {t : Spelling} {ts us : List Spelling} {s : Symbol}

theorem leads_of_tokens {ls : List Lexeme} (h : ls.map (·.token) = ts.map (·.token)) (finish : Nat) :
    Leads ts ⟨ls, finish⟩ ⟨[], finish⟩ := by
  induction ts generalizing ls with
  | nil =>
    obtain rfl : ls = [] := List.map_eq_nil_iff.1 h
    exact .nil _
  | cons t ts ih =>
    obtain ⟨l, ls, rfl, hl, hls⟩ := List.map_eq_cons_iff.1 h
    exact .cons hl (ih hls)

theorem Leads.token (h : Leads (t :: ts) i i') : i.token = t.token := by
  cases h with
  | cons h _ => exact h

theorem Leads.advance (h : Leads (t :: ts) i i') : Leads ts i.advance i' := by
  cases h with
  | cons _ h => exact h

theorem Leads.eq (h : Leads [] i i') : i' = i := by
  cases h
  rfl

theorem Leads.split (h : Leads (ts ++ us) i i') : ∃ mid, Leads ts i mid ∧ Leads us mid i' := by
  induction ts generalizing i with
  | nil => exact ⟨i, .nil i, h⟩
  | cons t ts ih =>
    cases h with
    | cons hl h =>
      obtain ⟨mid, hts, hus⟩ := ih h
      exact ⟨mid, .cons hl hts, hus⟩

theorem Leads.length_eq (h : Leads ts i i') : i.tokens.length = ts.length + i'.tokens.length := by
  induction h with
  | nil => exact (Nat.zero_add _).symm
  | cons _ _ ih =>
    rw [List.length_cons, List.length_cons, ih]
    omega

theorem eat?_of_token (h : i.token = .symbol s) : i.eat? s = some i.advance := by
  rw [eat?, h]
  exact if_pos rfl

theorem eat?_eq_none (h : i.token ≠ .symbol s) : i.eat? s = none := by
  unfold eat?
  split
  · rename_i heq
    rw [if_neg]
    rintro rfl
    exact h heq
  · rfl

theorem expect_of_token (h : i.token = .symbol s) : i.expect s = pure i.advance := by
  rw [expect, eat?_of_token h]

theorem isWord_of_token {x : String} (h : i.token = .ident x) : i.isWord x = true := by
  rw [isWord, h]
  exact beq_self_eq_true x

theorem Leads.keyArgument {text : String} (h : Leads (Surface.enclosed [.key text]) i i') :
    keyArgument i = pure (text, i') := by
  have hkey := h.advance
  have hclosing := hkey.advance
  rw [Expr.keyArgument, expect_of_token h.token, pure_bind, hkey.token]
  change (i.advance.advance.expect .closing >>= fun after => pure (text, after)) = _
  rw [expect_of_token hclosing.token, pure_bind, ← hclosing.advance.eq]

end Input

end Expr

open Barrage.Expr Barrage.Expr.Input Barrage.Expr.Parse

/-! ### Tokens around a part -/

namespace Token

/-- Whether a token can open a part that binds so loosely. -/
def opens (looseness : Nat) : Token → Bool
  | float _ | int _ | symbol .opening => true
  | symbol .minus | symbol .bang => 0 < looseness
  | ident x => x != "let" || Operator.levels + 2 ≤ looseness
  | _ => false

/-- Whether a token ends a part of the operators below a level. -/
def stops (above : Nat) : Token → Bool
  | symbol s => s != .opening && s != .dot && (List.range above).all fun level => (Operator.at? level s).isNone
  | _ => true

/-- Whether a token ends every part. -/
def closes : Token → Bool
  | symbol s => s == .closing || s == .comma || s == .colon
  | _ => true

theorem opens_mono {m n : Nat} {t : Token} (h : t.opens m = true) (hmn : m ≤ n) : t.opens n = true := by
  cases t with
  | symbol s =>
    cases s <;> simp only [opens, decide_eq_true_eq] at h ⊢ <;> first | exact h | omega
  | ident x =>
    simp only [opens, Bool.or_eq_true, decide_eq_true_eq] at h ⊢
    exact h.imp_right hmn.trans'
  | _ => exact h

theorem stops_mono {above level : Nat} {t : Token} (h : t.stops above = true) (hlevel : level ≤ above) :
    t.stops level = true := by
  cases t with
  | symbol s =>
    simp only [stops, Bool.and_eq_true, List.all_eq_true, List.mem_range] at h ⊢
    exact ⟨h.1, fun l hl => h.2 l (by omega)⟩
  | _ => rfl

theorem stops_of_closes {t : Token} (h : t.closes = true) (above : Nat) : t.stops above = true := by
  cases t with
  | symbol s =>
    cases s
    case closing | comma | colon => simp [stops, Operator.at?]
    all_goals cases h
  | _ => rfl

theorem stops_sign (op : Operator) : (symbol op.sign).stops op.level = true := by
  cases op with
  | func f => cases f <;> decide
  | op o => cases o <;> decide

end Token

theorem Operator.at?_sign {op : Operator} (h : op.isWritten = true) : at? op.level op.sign = some op := by
  cases op with
  | func f => cases f <;> first | rfl | cases h
  | op o => cases o <;> rfl

theorem Operator.level_lt (op : Operator) : op.level < levels := by
  cases op with
  | func f => cases f <;> decide
  | op o => cases o <;> decide

namespace Expr.Input

variable {i : Input} {above level n : Nat}

theorem eat?_of_stops (h : i.token.stops above = true) : i.eat? .opening = none ∧ i.eat? .dot = none := by
  constructor <;>
  · refine eat?_eq_none fun heq => ?_
    rw [heq] at h
    simp [Token.stops] at h

theorem operator?_of_stops (h : i.token.stops above = true) (hlevel : level < above) : i.operator? level = none := by
  unfold operator?
  split
  · rename_i s heq
    rw [heq] at h
    simp only [Token.stops, Bool.and_eq_true, List.all_eq_true, List.mem_range, Option.isNone_iff_eq_none] at h
    rw [h.2 level hlevel, Option.map_none]
  · rfl

theorem operator?_of_token {op : Operator} (h : i.token = .symbol op.sign) (hop : op.isWritten = true) :
    i.operator? op.level = some (op, i.advance) := by
  rw [operator?, h]
  exact congrArg (Option.map _) (Operator.at?_sign hop)

theorem eat?_closing_of_opens (h : i.token.opens n = true) : i.eat? .closing = none := by
  refine eat?_eq_none fun heq => ?_
  rw [heq] at h
  cases h

theorem eat?_of_opens_zero (h : i.token.opens 0 = true) : i.eat? .minus = none ∧ i.eat? .bang = none := by
  constructor <;>
  · refine eat?_eq_none fun heq => ?_
    rw [heq] at h
    cases h

theorem isWord_let_of_opens (h : i.token.opens n = true) (hn : n < Operator.levels + 2) :
    i.isWord "let" = false := by
  unfold isWord
  split
  · rename_i name heq
    rw [heq] at h
    simp only [Token.opens, Bool.or_eq_true, decide_eq_true_eq, bne_iff_ne] at h
    exact beq_eq_false_iff_ne.2 (h.resolve_right (by omega))
  · rfl

end Expr.Input

theorem FreeName.ne {x y : String} (hx : FreeName x) (hy : keywords.contains y = true) : x ≠ y := by
  rintro rfl
  rw [hx.free] at hy
  cases hy

namespace Surface

variable {hosts : Hosts} {s : Surface}

theorem opens_ident {x : String} (hx : x ≠ "let") (n : Nat) : (Token.ident x).opens n = true := by
  simp [Token.opens, hx]

/-- The first token of a part. -/
theorem WellFormed.exists_tokens (h : s.WellFormed hosts) :
    ∃ t ts, s.tokens = t :: ts ∧ t.token.opens s.looseness = true := by
  induction h with
  | number h =>
    refine ⟨_, _, rfl, ?_⟩
    cases h with
    | float ht => rw [Spelling.number, Spelling.numberValue_float ht]; rfl
    | int _ _ hword => rw [Spelling.number, Spelling.numberValue_int hword]; rfl
  | bool b => cases b <;> exact ⟨_, _, rfl, opens_ident (by decide) _⟩
  | timer | entity => exact ⟨_, _, rfl, opens_ident (by decide) _⟩
  | name hx => exact ⟨_, _, rfl, opens_ident (hx.ne (by decide)) _⟩
  | @sign op _ _ _ _ => cases op <;> exact ⟨_, _, rfl, rfl⟩
  | member hloose _ ih =>
    obtain ⟨t, ts, htokens, hopens⟩ := ih
    exact ⟨t, _, by rw [tokens, htokens]; rfl, Token.opens_mono hopens hloose⟩
  | join _ hleft _ _ _ ih _ =>
    obtain ⟨t, ts, htokens, hopens⟩ := ih
    exact ⟨t, _, by rw [tokens, htokens]; rfl, Token.opens_mono hopens hleft⟩
  | @call func _ _ _ _ =>
    refine ⟨_, _, rfl, opens_ident ?_ _⟩
    cases func <;> decide
  | choice hloose _ _ _ ih _ _ =>
    obtain ⟨t, ts, htokens, hopens⟩ := ih
    exact ⟨t, _, by rw [tokens, htokens]; rfl, Token.opens_mono hopens (hloose.trans (Nat.le_succ _))⟩
  | bind => exact ⟨_, _, rfl, rfl⟩
  | parens => exact ⟨_, _, rfl, rfl⟩

theorem WellFormed.opens (h : s.WellFormed hosts) {i i' : Input} (hleads : Leads s.tokens i i') :
    i.token.opens s.looseness = true := by
  obtain ⟨t, ts, htokens, hopens⟩ := h.exists_tokens
  rw [htokens] at hleads
  rw [hleads.token]
  exact hopens

theorem links_eq_zero {level : Nat} (h : s.looseness ≤ level + 1) : s.links level = 0 := by
  cases s with
  | join op left right =>
    have hlevel : op.level ≠ level := by
      rintro rfl
      exact absurd h (Nat.not_succ_le_self _)
    rw [links, if_neg hlevel]
  | _ => rfl

theorem links_le_levels (s : Surface) (level : Nat) : s.links level ≤ s.levels := by
  cases s with
  | join op left right =>
    rw [links, levels]
    split
    · rename_i heq
      subst heq
      omega
    · exact Nat.zero_le _
  | _ => exact Nat.zero_le _

theorem dots_le_levels (s : Surface) : s.dots ≤ s.levels := by
  cases s with
  | member inner field => exact Nat.le_max_right _ _
  | _ => exact Nat.zero_le _

/-! ### What is read -/

/-- What the reader of primaries and of the accesses after them comes to behind an operand. -/
def IsOperand (hosts : Hosts) (s : Surface) : Prop :=
  ∀ ⦃room : Nat⦄ ⦃i i' : Input⦄, Leads s.tokens i i' → i'.eat? .opening = none →
    Agrees hosts (s.levels ≤ room) (Reading.primary room i >>= fun r => Reading.members room r.1 r.2)
      (Reading.members (room - s.dots) s.expr i')

/-- What the reader of the operators below a level comes to behind a part. -/
def IsLeveled (hosts : Hosts) (above : Nat) (s : Surface) : Prop :=
  ∀ ⦃room : Nat⦄ ⦃i i' : Input⦄, Leads s.tokens i i' → i'.token.stops above = true →
    Agrees hosts (s.levels ≤ room) (Reading.level above room i) (pure (s.expr, i'))

/-- What the reader of a chain comes to behind the left part of it. -/
def IsChained (hosts : Hosts) (level : Nat) (s : Surface) : Prop :=
  ∀ ⦃room : Nat⦄ ⦃i i' : Input⦄, Leads s.tokens i i' → i'.token.stops level = true →
    Agrees hosts (s.levels ≤ room)
      (Reading.level level room i >>= fun r => Reading.chain level room r.1 r.2)
      (Reading.chain level (room - s.links level) s.expr i')

/-- What the reader of whole expressions comes to behind a part. -/
def IsBody (hosts : Hosts) (s : Surface) : Prop :=
  ∀ ⦃room : Nat⦄ ⦃i i' : Input⦄, Leads s.tokens i i' → i'.token.closes = true →
    Agrees hosts (s.levels ≤ room) (Reading.body room i) (pure (s.expr, i'))

/-- A part is read by every reader that may meet it. -/
structure IsRead (hosts : Hosts) (s : Surface) : Prop where
  operand : s.looseness = 0 → s.IsOperand hosts
  leveled : ∀ above ≤ Operator.levels, s.looseness ≤ above + 1 → s.IsLeveled hosts above
  chained : ∀ level < Operator.levels, s.looseness ≤ level + 2 → s.IsChained hosts level
  body : s.IsBody hosts

/-! ### From one reader to the next -/

theorem IsOperand.leveled_zero (hs : s.IsOperand hosts) (hloose : s.looseness = 0) (h : s.WellFormed hosts) :
    s.IsLeveled hosts 0 := by
  intro room i i' hleads hstops
  have hopens := h.opens hleads
  rw [hloose] at hopens
  obtain ⟨hminus, hbang⟩ := eat?_of_opens_zero hopens
  obtain ⟨hopening, hdot⟩ := eat?_of_stops hstops
  -- No access follows, so what was read of the operand is the result.
  have hend : Reading.members (room - s.dots) s.expr i' = pure (s.expr, i') := by
    rw [Reading.members, hdot]
  have hread := @hs room i i' hleads hopening
  rw [hend] at hread
  rw [Reading.level, Reading.signed, hminus, hbang]
  exact hread

theorem IsLeveled.chained {level : Nat} (hs : s.IsLeveled hosts level) (hloose : s.looseness ≤ level + 1) :
    s.IsChained hosts level := by
  intro room i i' hleads hstops
  rw [links_eq_zero hloose, Nat.sub_zero]
  exact (hs hleads hstops).after rfl

theorem IsChained.leveled_succ {level : Nat} (hs : s.IsChained hosts level) : s.IsLeveled hosts (level + 1) := by
  intro room i i' hleads hstops
  have hend : Reading.chain level (room - s.links level) s.expr i' = pure (s.expr, i') := by
    rw [Reading.chain, operator?_of_stops hstops (Nat.lt_succ_self level)]
  have hread := @hs room i i' hleads (Token.stops_mono hstops (Nat.le_succ level))
  rw [hend] at hread
  rw [Reading.level]
  exact hread

theorem IsLeveled.body (hs : s.IsLeveled hosts Operator.levels) (hloose : s.looseness ≤ Operator.levels + 1)
    (h : s.WellFormed hosts) : s.IsBody hosts := by
  intro room i i' hleads hcloses
  have hlet : i.isWord "let" = false := isWord_let_of_opens (h.opens hleads) (Nat.lt_succ_of_le hloose)
  have hquestion : i'.eat? .question = none := by
    refine eat?_eq_none fun heq => ?_
    rw [heq] at hcloses
    cases hcloses
  rw [Reading.body, hlet, if_neg Bool.false_ne_true]
  refine (hs hleads (Token.stops_of_closes hcloses _)).after ?_
  simp only [hquestion]

/-- An expression one level further in. -/
theorem IsBody.nested (hs : s.IsBody hosts) (room : Nat) {i i' : Input} (hleads : Leads s.tokens i i')
    (hcloses : i'.token.closes = true) :
    Agrees hosts (s.levels + 1 ≤ room) (Reading.nested room i) (pure (s.expr, i')) := by
  cases room with
  | zero =>
    rw [Reading.nested]
    exact .fail i (Nat.not_succ_le_zero _)
  | succ room =>
    rw [Reading.nested]
    exact (hs hleads hcloses).congr Nat.succ_le_succ_iff.symm

/-- A part that binds as loosely as the operators of some level, or tighter, is read at every level above it. -/
theorem IsChained.upwards {level : Nat} (hs : s.IsChained hosts level) (hloose : s.looseness ≤ level + 2)
    (more : Nat) : s.IsChained hosts (level + more) ∧ s.IsLeveled hosts (level + more + 1) := by
  -- A reader of operators meets the part as the left end of a chain of its own, which is empty.
  induction more with
  | zero => exact ⟨hs, hs.leveled_succ⟩
  | succ more ih =>
    have hchained : s.IsChained hosts (level + more + 1) := ih.2.chained (by omega)
    exact ⟨hchained, hchained.leveled_succ⟩

/-- An operator is read by the readers of its level and of those above it. -/
theorem IsChained.isRead {level : Nat} (hs : s.IsChained hosts level) (hlevel : level < Operator.levels)
    (hloose : s.looseness = level + 2) (h : s.WellFormed hosts) : s.IsRead hosts where
  operand hzero := by omega
  leveled above _ habove := by
    obtain ⟨more, rfl⟩ : ∃ more, above = level + more + 1 := ⟨above - level - 1, by omega⟩
    exact (hs.upwards hloose.le more).2
  chained above _ habove := by
    obtain ⟨more, rfl⟩ : ∃ more, above = level + more := ⟨above - level, by omega⟩
    exact (hs.upwards hloose.le more).1
  body := by
    have hwhole := (hs.upwards hloose.le (Operator.levels - level - 1)).2
    have hsum : level + (Operator.levels - level - 1) + 1 = Operator.levels := by omega
    rw [hsum] at hwhole
    exact hwhole.body (by omega) h

/-- An operand, perhaps with signs, is read at every level. -/
theorem IsLeveled.isRead (hs : s.IsLeveled hosts 0) (hloose : s.looseness ≤ 1) (h : s.WellFormed hosts)
    (hoperand : s.looseness = 0 → s.IsOperand hosts) : s.IsRead hosts := by
  have hchained := hs.chained hloose
  have hupwards := hchained.upwards (by omega)
  refine ⟨hoperand, fun above _ _ => ?_, fun level _ _ => ?_, ?_⟩
  · cases above with
    | zero => exact hs
    | succ above =>
      have hwhole := (hupwards above).2
      rw [Nat.zero_add] at hwhole
      exact hwhole
  · have hwhole := (hupwards level).1
    rw [Nat.zero_add] at hwhole
    exact hwhole
  · exact (hupwards (Operator.levels - 1)).2.body (by omega) h

theorem IsOperand.isRead (hs : s.IsOperand hosts) (hloose : s.looseness = 0) (h : s.WellFormed hosts) :
    s.IsRead hosts :=
  (hs.leveled_zero hloose h).isRead (by omega) h fun _ => hs

theorem IsBody.isRead (hs : s.IsBody hosts) (hloose : s.looseness = Operator.levels + 2) : s.IsRead hosts :=
  ⟨fun _ => by omega, fun _ _ _ => by omega, fun _ _ _ => by omega, hs⟩

/-- An operand after which there is no access to read. -/
theorem IsOperand.of_primary (hdots : s.dots = 0)
    (hread : ∀ ⦃room : Nat⦄ ⦃i i' : Input⦄, Leads s.tokens i i' → i'.eat? .opening = none →
      Agrees hosts (s.levels ≤ room) (Reading.primary room i) (pure (s.expr, i'))) : s.IsOperand hosts := by
  intro room i i' hleads hopening
  rw [hdots, Nat.sub_zero]
  exact (hread hleads hopening).after rfl

/-! ### Numbers, names and lookups -/

theorem isOperand_number {text : List Char} (h : IsNumberText text) : (number text).IsOperand hosts := by
  refine .of_primary rfl fun room i i' hleads _ => .of_run ?_ (Nat.zero_le _)
  have htoken := hleads.token
  have hrest := hleads.advance.eq
  cases h with
  | float ht =>
    rw [Spelling.number, Spelling.numberValue_float ht] at htoken
    rw [Reading.primary, htoken, expr, Spelling.numberValue_float ht, hrest]
  | int _ _ hword =>
    rw [Spelling.number, Spelling.numberValue_int hword] at htoken
    rw [Reading.primary, htoken, expr, Spelling.numberValue_int hword, hrest]

theorem isOperand_bool (b : Bool) : (bool b).IsOperand hosts := by
  refine .of_primary rfl fun room i i' hleads _ => .of_run ?_ (Nat.zero_le _)
  rw [Reading.primary, hleads.token, hleads.advance.eq]
  cases b <;> rfl

theorem isOperand_timer {handle : TimerHandle} (h : hosts.timer handle.name = (handle, hosts)) :
    (timer handle).IsOperand hosts := by
  refine .of_primary rfl fun room i i' hleads _ => .of_run ?_ (Nat.zero_le _)
  have hkey := hleads.advance.keyArgument
  rw [Reading.primary, hleads.token]
  simp only [Spelling.word, reduceIte, String.reduceEq, hkey, pure_bind]
  change (Except.ok (Expr.const (.timer (hosts.timer handle.name).1), i'), (hosts.timer handle.name).2) = _
  rw [h]
  rfl

theorem isOperand_entity {handle : EntityHandle} (h : hosts.entity? handle.id = some handle) :
    (entity handle).IsOperand hosts := by
  refine .of_primary rfl fun room i i' hleads _ => .of_run ?_ (Nat.zero_le _)
  have hkey := hleads.advance.keyArgument
  rw [Reading.primary, hleads.token]
  simp only [Spelling.word, reduceIte, String.reduceEq, hkey, pure_bind]
  rw [run_bind_of_ok (show (get : Parse Hosts).run.run hosts = (.ok hosts, hosts) from rfl), h]
  rfl

theorem isOperand_name {x : String} (hx : FreeName x) : (name x).IsOperand hosts := by
  refine .of_primary rfl fun room i i' hleads hopening => .of_run ?_ (Nat.zero_le _)
  have hchecked : checkedName x i.offset = pure x := by
    rw [checkedName, hx.single, hx.free, if_neg Bool.false_ne_true, if_neg Bool.false_ne_true]
  have hrest := hleads.advance.eq
  rw [hrest] at hopening
  rw [Reading.primary, hleads.token]
  simp only [Spelling.word, hx.ne (show keywords.contains "true" = true by decide),
    hx.ne (show keywords.contains "false" = true by decide), hx.ne (show keywords.contains "timer" = true by decide),
    hx.ne (show keywords.contains "entity" = true by decide), reduceIte, hopening, hchecked, pure_bind]
  rw [hrest]
  rfl

/-! ### Nodes -/

theorem IsBody.parens {inner : Surface} (hs : inner.IsBody hosts) : (parens inner).IsOperand hosts := by
  refine .of_primary rfl fun room i i' hleads _ => ?_
  obtain ⟨mid, hinner, hclosing⟩ := hleads.advance.split
  have hread := hs.nested room hinner (by rw [hclosing.token]; rfl)
  rw [Reading.primary, hleads.token]
  refine hread.after ?_
  simp only [expect_of_token hclosing.token, pure_bind, hclosing.advance.eq]
  rfl

theorem IsOperand.member {inner : Surface} (hs : inner.IsOperand hosts) (field : Member) :
    (member inner field).IsOperand hosts := by
  intro room i i' hleads _
  obtain ⟨mid, hinner, hdot⟩ := hleads.split
  have htoken := hdot.token
  have hname := hdot.advance.token
  have hopening : mid.eat? .opening = none := by
    refine eat?_eq_none fun heq => ?_
    rw [htoken] at heq
    cases heq
  have hfield : Member.ofName? field.name = some field := by cases field <;> rfl
  have hlevels := dots_le_levels inner
  -- The access opens a level below those that the accesses before it have opened.
  have hnext : Agrees hosts (inner.dots + 1 ≤ room) (Reading.members (room - inner.dots) inner.expr mid)
      (Reading.members (room - (inner.dots + 1)) (.member inner.expr field) i') := by
    rw [Reading.members, eat?_of_token htoken]
    cases hroom : room - inner.dots with
    | zero => exact .fail _ (by omega)
    | succ more =>
      have hmore : room - (inner.dots + 1) = more := by omega
      simp only [hname, Spelling.word, hfield, hmore, hdot.advance.advance.eq]
      exact .refl _ (by omega)
  exact ((hs hinner hopening).trans hnext).congr (by rw [levels]; omega)

theorem IsLeveled.sign {inner : Surface} (hs : inner.IsLeveled hosts 0) (op : UnOp) :
    (sign op inner).IsLeveled hosts 0 := by
  intro room i i' hleads hstops
  -- What a sign stands before is read by the reader of signs again, one level further in.
  have hinner (more : Nat) :
      Agrees hosts (inner.levels ≤ more) (Reading.signed more i.advance) (pure (inner.expr, i')) := by
    have hread := @hs more _ _ hleads.advance hstops
    rw [Reading.level] at hread
    exact hread
  rw [Reading.level, Reading.signed]
  cases op with
  | neg =>
    have htoken : i.token = .symbol .minus := hleads.token
    rw [eat?_of_token htoken]
    cases room with
    | zero => exact .fail _ (Nat.not_succ_le_zero _)
    | succ room => exact ((hinner room).after rfl).congr Nat.succ_le_succ_iff.symm
  | not =>
    have htoken : i.token = .symbol .bang := hleads.token
    have hminus : i.eat? .minus = none := by
      refine eat?_eq_none fun heq => ?_
      rw [htoken] at heq
      cases heq
    rw [hminus, eat?_of_token htoken]
    cases room with
    | zero => exact .fail _ (Nat.not_succ_le_zero _)
    | succ room => exact ((hinner room).after rfl).congr Nat.succ_le_succ_iff.symm

theorem IsChained.join {op : Operator} {left right : Surface} (hl : left.IsChained hosts op.level)
    (hr : right.IsLeveled hosts op.level) (hop : op.isWritten = true) :
    (join op left right).IsChained hosts op.level := by
  intro room i i' hleads hstops
  obtain ⟨mid, hleft, hoperator⟩ := hleads.split
  have htoken := hoperator.token
  have hlinks := links_le_levels left op.level
  -- The right operand and all that follows it in the chain stand one level further in.
  have hnext : Agrees hosts (left.links op.level + 1 + right.levels ≤ room)
      (Reading.chain op.level (room - left.links op.level) left.expr mid)
      (Reading.chain op.level (room - (left.links op.level + 1)) (op.apply left.expr right.expr) i') := by
    rw [Reading.chain, operator?_of_token htoken hop]
    cases hroom : room - left.links op.level with
    | zero => exact .fail _ (by omega)
    | succ more =>
      have hmore : room - (left.links op.level + 1) = more := by omega
      rw [hmore]
      exact ((hr hoperator.advance hstops).after rfl).congr (by omega)
  have hread := (@hl room _ _ hleft (by rw [htoken]; exact Token.stops_sign op)).trans hnext
  rw [links, if_pos rfl, expr]
  exact hread.congr (by rw [levels]; omega)

theorem isBody_choice {cond yes no : Surface} (hc : cond.IsLeveled hosts Operator.levels)
    (hloose : cond.looseness ≤ Operator.levels + 1) (hcond : cond.WellFormed hosts) (hy : yes.IsBody hosts)
    (hn : no.IsBody hosts) : (choice cond yes no).IsBody hosts := by
  intro room i i' hleads hcloses
  obtain ⟨mid, hfirst, hquestion⟩ := hleads.split
  obtain ⟨mid', hsecond, hcolon⟩ := hquestion.advance.split
  have hthird := hcolon.advance
  have hlet : i.isWord "let" = false := isWord_let_of_opens (hcond.opens hfirst) (Nat.lt_succ_of_le hloose)
  have hyes := hy.nested room hsecond (by rw [hcolon.token]; rfl)
  have hno := hn.nested room hthird hcloses
  rw [Reading.body, hlet, if_neg Bool.false_ne_true]
  refine ((hc hfirst (by rw [hquestion.token]; decide)).bind (B := yes.levels + 1 ≤ room ∧ no.levels + 1 ≤ room)
    ?_).congr (by rw [levels]; omega)
  simp only [eat?_of_token hquestion.token]
  refine hyes.bind ?_
  simp only [expect_of_token hcolon.token, pure_bind]
  exact hno.after rfl

theorem isBody_bind {x : String} {value rest : Surface} (hx : FreeName x) (hv : value.IsBody hosts)
    (hr : rest.IsBody hosts) : (Surface.bind x value rest).IsBody hosts := by
  intro room i i' hleads hcloses
  have hname := hleads.advance
  have hassign := hname.advance
  obtain ⟨mid, hvalue, hin⟩ := hassign.advance.split
  have hchecked : checkedName x i.advance.offset = pure x := by
    rw [checkedName, hx.single, hx.free, if_neg Bool.false_ne_true, if_neg Bool.false_ne_true]
  have hv := hv.nested room hvalue (by rw [hin.token]; rfl)
  have hr := hr.nested room hin.advance hcloses
  rw [Reading.body, isWord_of_token hleads.token, if_pos rfl]
  simp only [hname.token, Spelling.word, hchecked, pure_bind, expect_of_token hassign.token]
  refine (hv.bind (B := rest.levels + 1 ≤ room) ?_).congr (by rw [levels]; omega)
  simp only [isWord_of_token hin.token, if_true]
  exact hr.after rfl

/-! ### Calls -/

theorem exists_listed_cons (arg : Surface) (args : List Surface) :
    ∃ rest, listed (arg :: args) = arg.tokens ++ rest := by
  cases args with
  | nil => exact ⟨_, rfl⟩
  | cons next args => exact ⟨_, rfl⟩

theorem arguments_listed {arg : Surface} {args : List Surface}
    (h : ∀ s ∈ arg :: args, s.IsBody hosts) {room : Nat} {i i' : Input}
    (hleads : Leads (listed (arg :: args)) i i') :
    Agrees hosts (levelsList (arg :: args) ≤ room) (Reading.arguments room i) (pure (exprs (arg :: args), i')) := by
  induction args generalizing arg i with
  | nil =>
    obtain ⟨mid, harg, hclosing⟩ := hleads.split
    have hread := (h arg (by simp)).nested room harg (by rw [hclosing.token]; rfl)
    rw [Reading.arguments]
    refine (hread.after ?_).congr (by simp [levelsList])
    simp only [eat?_of_token hclosing.token, hclosing.advance.eq]
    rfl
  | cons next args ih =>
    obtain ⟨mid, harg, hcomma⟩ := hleads.split
    have hread := (h arg (by simp)).nested room harg (by rw [hcomma.token]; rfl)
    have hmore := ih (fun s hs => h s (List.mem_cons_of_mem _ hs)) hcomma.advance
    have hclosing : mid.eat? .closing = none := by
      refine eat?_eq_none fun heq => ?_
      rw [hcomma.token] at heq
      cases heq
    -- The reader goes on only if the rest of the text is shorter.
    have hshorter : mid.advance.tokens.length < i.tokens.length := by
      have hwhole := hleads.length_eq
      have hrest := hcomma.advance.length_eq
      rw [listed, List.length_append, List.length_cons] at hwhole
      omega
    rw [Reading.arguments]
    refine (hread.bind (B := levelsList (next :: args) ≤ room) ?_).congr (by simp [levelsList])
    simp only [hclosing, expect_of_token hcomma.token, pure_bind, if_pos hshorter]
    exact hmore.after rfl

theorem Func.ofName?_sourceName {f : Func} (h : f.isInfix = false) : Func.ofName? f.sourceName = some f := by
  cases f <;> first | rfl | cases h

theorem isOperand_call {func : Func} {args : List Surface} (hfunc : func.isInfix = false)
    (hargs : ∀ arg ∈ args, arg.WellFormed hosts) (h : ∀ arg ∈ args, arg.IsBody hosts) :
    (call func args).IsOperand hosts := by
  refine .of_primary rfl fun room i i' hleads _ => ?_
  have hopening := hleads.advance
  have hlisted := hopening.advance
  -- No function is called like one of the words that a primary is told by first.
  obtain ⟨htrue, hfalse, htimer, hentity⟩ : func.sourceName ≠ "true" ∧ func.sourceName ≠ "false" ∧
      func.sourceName ≠ "timer" ∧ func.sourceName ≠ "entity" := by
    cases func <;> decide
  rw [Reading.primary, hleads.token]
  simp only [Spelling.word, htrue, hfalse, htimer, hentity, reduceIte, eat?_of_token hopening.token,
    Func.ofName?_sourceName hfunc]
  cases args with
  | nil =>
    rw [eat?_of_token hlisted.token, hlisted.advance.eq]
    exact .refl _ (Nat.zero_le _)
  | cons arg args =>
    have hclosing : i.advance.advance.eat? .closing = none := by
      obtain ⟨rest, hrest⟩ := exists_listed_cons arg args
      rw [hrest] at hlisted
      obtain ⟨mid, hfirst, -⟩ := hlisted.split
      exact eat?_closing_of_opens ((hargs arg (by simp)).opens hfirst)
    rw [hclosing]
    exact (arguments_listed h hlisted).after rfl

/-! ### Parts -/

/-- Every part that can be read is read as the expression it stands for. -/
theorem WellFormed.isRead (h : s.WellFormed hosts) : s.IsRead hosts := by
  -- Each part is read by the tightest reader that can meet it; the readers above that one pass it on.
  induction h with
  | number h => exact (isOperand_number h).isRead rfl (.number h)
  | bool b => exact (isOperand_bool b).isRead rfl (.bool b)
  | timer h => exact (isOperand_timer h).isRead rfl (.timer h)
  | entity h => exact (isOperand_entity h).isRead rfl (.entity h)
  | name hx => exact (isOperand_name hx).isRead rfl (.name hx)
  | sign hloose h ih =>
    exact ((ih.leveled 0 (Nat.zero_le _) hloose).sign _).isRead (Nat.le_refl 1) (.sign hloose h) fun hzero => by
      cases hzero
  | member hloose h ih =>
    exact ((ih.operand (Nat.le_zero.1 hloose)).member _).isRead rfl (.member hloose h)
  | @join op _ _ hop hleft hright hl hr ihl ihr =>
    have hlevel := op.level_lt
    exact ((ihl.chained _ hlevel hleft).join (ihr.leveled _ hlevel.le hright) hop).isRead hlevel rfl
      (.join hop hleft hright hl hr)
  | call hfunc hargs ih =>
    exact (isOperand_call hfunc hargs fun arg harg => (ih arg harg).body).isRead rfl (.call hfunc hargs)
  | choice hloose hcond _ _ ihc ihy ihn =>
    exact (isBody_choice (ihc.leveled _ (Nat.le_refl _) hloose) hloose hcond ihy.body ihn.body).isRead rfl
  | bind hx _ _ ihv ihr => exact (isBody_bind hx ihv.body ihr.body).isRead rfl
  | parens h ih => exact ih.body.parens.isRead rfl (.parens h)

/-- The text of a part that can be read is read as the expression that it stands for if the part takes less
than the greatest number of levels; otherwise it is found to be nested too deeply. -/
theorem WellFormed.parse_text (h : s.WellFormed hosts) :
    (s.levels < maxNesting → parseIn hosts s.text = (.ok s.expr, hosts)) ∧
      (¬s.levels < maxNesting → ∃ offset, parseIn hosts s.text = (.error ⟨offset, .tooDeep⟩, hosts)) := by
  obtain ⟨ls, hls, htokens⟩ := h.exists_lexemes 0
  have hread := h.isRead.body.nested maxNesting
    (leads_of_tokens htokens s.text.utf8ByteSize) rfl
  have hagrees : Agrees hosts (s.levels < maxNesting) (parse s.text) (pure s.expr) := by
    rw [parse, hls]
    exact hread.after rfl
  exact ⟨hagrees.of_fits, hagrees.of_not_fits⟩

end Surface

namespace Expr

/-- Reading inverts writing. With whatever further parentheses an expression is written, its text is read as
the expression, unless it is found to be nested too deeply, which it is exactly if its parts take too many
levels. Without further parentheses, that does not happen to an expression of thirty-one nodes or fewer. -/
theorem Writable.parseIn_text {hosts : Hosts} {e : Expr} (h : e.Writable hosts) :
    (∀ s, e.surface.Wraps s →
      (s.levels < maxNesting → parseIn hosts s.text = (.ok e, hosts)) ∧
        (¬s.levels < maxNesting → ∃ offset, parseIn hosts s.text = (.error ⟨offset, .tooDeep⟩, hosts))) ∧
      (e.nodes ≤ 31 → parseIn hosts e.surface.text = (.ok e, hosts)) := by
  obtain ⟨hexpr, hwell⟩ := h.surface_cases
  have hread (s : Surface) (hs : e.surface.Wraps s) :
      (s.levels < maxNesting → parseIn hosts s.text = (.ok e, hosts)) ∧
        (¬s.levels < maxNesting → ∃ offset, parseIn hosts s.text = (.error ⟨offset, .tooDeep⟩, hosts)) := by
    have hsame : s.expr = e := hs.expr_eq.trans hexpr
    rw [← hsame]
    exact (hs.wellFormed hwell).parse_text
  refine ⟨hread, fun hnodes => (hread e.surface (.refl _)).1 ?_⟩
  have hlevels := (fits_surface e).levels
  have hmax : maxNesting = 64 := rfl
  omega

/-- A choice by the time of a timer. -/
theorem parseIn_text_spin :
    let hosts := (Hosts.empty.timer "spin").2
    let spin : Expr := .member (.const (.timer ⟨0, "spin"⟩)) .elapsed
    let e : Expr := .bind "t" spin (.branch (.binary .lt (.var "t") (.const (.int 2))) (.unary .neg (.var "t"))
      (.call .mul [.var "t", .const (.int (-3))]))
    e.Writable hosts ∧ e.nodes ≤ 31 ∧
      parseIn hosts "let t = timer ( \"spin\" ) . elapsed in t < 2 ? - t : t * - 3" = (.ok e, hosts) := by
  intro hosts spin e
  have ht : FreeName "t" := ⟨⟨.of_check (by decide), by decide⟩, by decide⟩
  have hwritable : e.Writable hosts := by
    refine .bind ht (.member _ (.timer rfl)) (.branch (.binary _ (.var ht) (.int (by decide)))
      (.unary (fun _ => rfl) (.var ht)) (.call (fun _ => rfl) ?_))
    exact List.forall_mem_cons.2 ⟨.var ht, List.forall_mem_singleton.2 (.int (by decide))⟩
  have htext : e.surface.text = "let t = timer ( \"spin\" ) . elapsed in t < 2 ? - t : t * - 3" := by decide
  have hnodes : e.nodes ≤ 31 := by decide
  rw [← htext]
  exact ⟨hwritable, hnodes, hwritable.parseIn_text.2 hnodes⟩

end Expr

end Barrage
