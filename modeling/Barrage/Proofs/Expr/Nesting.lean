import Mathlib
import Barrage.Proofs.Expr.Readers
import Barrage.Proofs.Expr.Trees

/-!
# How deep the trees are that source text gives

A reader opens a level before it reads a part, so a part that is read after its node is known is
charged to that node. Three parts are not: the base of a member access, the left operand of an
operator and the condition of a choice are finished by the time the node above them shows up. We call
them the *leads* of a tree. Nothing charges the node above a lead to the levels inside of it, and the
levels that a lead took are free again when it is finished.

So the limit on nesting bounds the depth of a tree only along the paths that enter no lead. Whether
the whole tree keeps to the limit is decided by its leads alone, and `LeadsFit` says how: each one has
to fit in the levels that are left where it stands. Every tree is still bounded, since leads nest no
deeper than levels do, but by a number far greater than the limit.

## Main definitions

* `Expr.LeadsFit` — every lead has at most the levels that are left where it stands
* `Expr.deepest` — the greatest depth of a tree that is read with some room
* `Expr.Charged` — the invariant of the readers

## Main results

* `Expr.Reading.nested_charged` — every tree a reader builds is charged
* `Expr.parse_depth_iff` — the limit is kept exactly if all leads fit; a bound that holds anyway
* `Expr.parse_exceeds_maxNesting` — a text whose tree does not keep to the limit
-/

namespace Barrage

/-- Whether source writes a function between its operands. -/
def Func.isInfix : Func → Bool
  | add | mul | and | or => true
  | _ => false

theorem Func.isInfix_of_ofName? {name : String} {f : Func} (h : ofName? name = some f) :
    f.isInfix = false := by
  have hmem : f ∈ callable.map Prod.snd := by
    obtain ⟨l₁, l₂, hl, -⟩ := List.lookup_eq_some_iff.1 h
    rw [hl]
    simp
  have hall : ∀ g ∈ callable.map Prod.snd, g.isInfix = false := by decide
  exact hall f hmem

namespace Expr

mutual

/-- Whether every lead of a tree fits in the levels left where it stands, if the whole has `levels`. -/
def LeadsFit (levels : Nat) : Expr → Prop
  | const _ | var _ => True
  | member inner _ => inner.depth + 1 ≤ levels
  | unary _ inner => LeadsFit (levels - 1) inner
  | binary _ left right => left.depth + 1 ≤ levels ∧ LeadsFit (levels - 1) right
  | call func args =>
    if func.isInfix then OperandsFit levels args else ArgumentsFit (levels - 1) args
  | branch cond yes no =>
    cond.depth + 1 ≤ levels ∧ LeadsFit (levels - 1) yes ∧ LeadsFit (levels - 1) no
  | bind _ value body => LeadsFit (levels - 1) value ∧ LeadsFit (levels - 1) body

/-- The same for the operands of an operator, of which the first one is a lead. -/
def OperandsFit (levels : Nat) : List Expr → Prop
  | [] => True
  | left :: rest => left.depth + 1 ≤ levels ∧ ArgumentsFit (levels - 1) rest

/-- The same for arguments, none of which is a lead. -/
def ArgumentsFit (levels : Nat) : List Expr → Prop
  | [] => True
  | e :: es => LeadsFit levels e ∧ ArgumentsFit levels es

end

theorem argumentsFit_iff {levels : Nat} {args : List Expr} :
    ArgumentsFit levels args ↔ ∀ e ∈ args, LeadsFit levels e := by
  induction args with
  | nil => simp [ArgumentsFit]
  | cons e es ih => simp [ArgumentsFit, ih]

section Depth

variable {n : Nat}

theorem depthList_le_iff {args : List Expr} :
    depthList args ≤ n ↔ ∀ e ∈ args, e.depth ≤ n := by
  induction args with
  | nil => simp [depthList]
  | cons e es ih =>
    rw [depthList, Nat.max_le, ih, List.forall_mem_cons]

theorem depth_binary_le_iff {op : BinOp} {left right : Expr} :
    (binary op left right).depth ≤ n ↔ left.depth + 1 ≤ n ∧ right.depth + 1 ≤ n := by
  change 1 + max left.depth right.depth ≤ n ↔ _
  omega

theorem depth_call_le_iff {func : Func} {args : List Expr} :
    (call func args).depth ≤ n ↔ 1 ≤ n ∧ ∀ e ∈ args, e.depth + 1 ≤ n := by
  rw [depth]
  constructor
  · intro h
    have hargs : ∀ e ∈ args, e.depth ≤ n - 1 := depthList_le_iff.1 (by omega)
    exact ⟨by omega, fun e he => by have := hargs e he; omega⟩
  · rintro ⟨h1, h⟩
    have hargs : depthList args ≤ n - 1 :=
      depthList_le_iff.2 fun e he => by have := h e he; omega
    omega

theorem depth_branch_le_iff {cond yes no : Expr} : (branch cond yes no).depth ≤ n ↔
    cond.depth + 1 ≤ n ∧ yes.depth + 1 ≤ n ∧ no.depth + 1 ≤ n := by
  change 1 + max (max cond.depth yes.depth) no.depth ≤ n ↔ _
  omega

theorem depth_bind_le_iff {name : String} {value body : Expr} :
    (bind name value body).depth ≤ n ↔ value.depth + 1 ≤ n ∧ body.depth + 1 ≤ n := by
  change 1 + max value.depth body.depth ≤ n ↔ _
  omega

end Depth

/-- The leads of a tree fit in as many levels as the tree is deep. -/
theorem leadsFit_of_depth_le {e : Expr} {levels : Nat} (h : e.depth ≤ levels) : LeadsFit levels e := by
  induction e using treeInduction generalizing levels with
  | const | var => trivial
  | member inner field ih =>
    rw [depth] at h
    rw [LeadsFit]
    omega
  | unary op inner ih =>
    rw [depth] at h
    exact ih (by omega)
  | binary op left right ihl ihr =>
    obtain ⟨hl, hr⟩ := depth_binary_le_iff.1 h
    exact ⟨hl, ihr (by omega)⟩
  | call func args ih =>
    obtain ⟨-, hargs⟩ := depth_call_le_iff.1 h
    have hall : ArgumentsFit (levels - 1) args :=
      argumentsFit_iff.2 fun e he => ih e he (by have := hargs e he; omega)
    rw [LeadsFit]
    split
    · cases args with
      | nil => trivial
      | cons left rest => exact ⟨hargs left (by simp), hall.2⟩
    · exact hall
  | branch cond yes no _ ihy ihn =>
    obtain ⟨hc, hy, hn⟩ := depth_branch_le_iff.1 h
    exact ⟨hc, ihy (by omega), ihn (by omega)⟩
  | bind name value body ihv ihb =>
    obtain ⟨hv, hb⟩ := depth_bind_le_iff.1 h
    exact ⟨ihv (by omega), ihb (by omega)⟩

/-- The greatest depth of a tree that is read with some room. Each level adds a choice, a call and, for
every level of room that is left, one link to each of the six chains and to the members. -/
def deepest : (room : Nat) → Nat
  | 0 => 0
  | 1 => 1
  | room + 2 => deepest (room + 1) + 7 * (room + 1) + 2

theorem deepest_lt_succ (room : Nat) : deepest room < deepest (room + 1) := by
  cases room with
  | zero => decide
  | succ room =>
    rw [deepest]
    omega

/-- What a reader that was given some room knows of its tree: as soon as there are more levels than
room and all leads fit in them, the tree does too; and in any case it keeps to a bound. -/
structure Charged (room bound : Nat) (e : Expr) : Prop where
  depth_le_levels : ∀ levels, room < levels → LeadsFit levels e → e.depth ≤ levels
  depth_le_bound : e.depth ≤ bound

namespace Charged

variable {room room' bound bound' : Nat}

theorem mono {e : Expr} (h : Charged room bound e) (hr : room ≤ room') (hb : bound ≤ bound') :
    Charged room' bound' e where
  depth_le_levels levels hlt := h.depth_le_levels levels (by omega)
  depth_le_bound := Nat.le_trans h.depth_le_bound hb

theorem leaf {e : Expr} (h : e.depth = 1) (hb : 1 ≤ bound) : Charged room bound e where
  depth_le_levels _ _ _ := by omega
  depth_le_bound := by omega

/-- A member access has nothing but a lead. -/
theorem member {inner : Expr} {field : Member} (h : inner.depth ≤ bound) :
    Charged room (bound + 1) (member inner field) where
  depth_le_levels _ _ hfit := by
    rw [LeadsFit] at hfit
    rw [depth]
    omega
  depth_le_bound := by
    rw [depth]
    omega

theorem unary {op : UnOp} {inner : Expr} (h : Charged room bound inner) :
    Charged (room + 1) (bound + 1) (unary op inner) where
  depth_le_levels levels hlt hfit := by
    have := h.depth_le_levels (levels - 1) (by omega) hfit
    rw [depth]
    omega
  depth_le_bound := by
    have := h.depth_le_bound
    rw [depth]
    omega

/-- An operator: its first operand is a lead, and the second one was read with less room. -/
theorem operator {op : Operator} {left right : Expr} (hop : ∀ f, op = .func f → f.isInfix)
    (hleft : left.depth ≤ bound) (h : Charged room bound right) :
    Charged (room + 1) (bound + 1) (op.apply left right) := by
  have hbound := h.depth_le_bound
  cases op with
  | op o =>
    refine ⟨fun levels hlt hfit => ?_, depth_binary_le_iff.2 (by omega)⟩
    have hright := h.depth_le_levels (levels - 1) (by omega) hfit.2
    exact depth_binary_le_iff.2 ⟨hfit.1, by omega⟩
  | func f =>
    refine ⟨fun levels hlt hfit => ?_, depth_call_le_iff.2 ⟨by omega, ?_⟩⟩
    · rw [Operator.apply, LeadsFit, if_pos (hop f rfl)] at hfit
      have hright := h.depth_le_levels (levels - 1) (by omega) hfit.2.1
      refine depth_call_le_iff.2 ⟨by omega, List.forall_mem_cons.2 ⟨hfit.1, ?_⟩⟩
      exact List.forall_mem_singleton.2 (by omega)
    · exact List.forall_mem_cons.2 ⟨by omega, List.forall_mem_singleton.2 (by omega)⟩

theorem call {f : Func} {args : List Expr} (hf : f.isInfix = false)
    (h : ∀ e ∈ args, Charged room bound e) : Charged (room + 1) (bound + 1) (call f args) where
  depth_le_levels levels hlt hfit := by
    rw [LeadsFit, hf, if_neg Bool.false_ne_true, argumentsFit_iff] at hfit
    refine depth_call_le_iff.2 ⟨by omega, fun e he => ?_⟩
    have := (h e he).depth_le_levels (levels - 1) (by omega) (hfit e he)
    omega
  depth_le_bound := by
    refine depth_call_le_iff.2 ⟨by omega, fun e he => ?_⟩
    have := (h e he).depth_le_bound
    omega

theorem branch {cond yes no : Expr} (hc : cond.depth ≤ bound) (hy : Charged room bound yes)
    (hn : Charged room bound no) : Charged (room + 1) (bound + 1) (branch cond yes no) where
  depth_le_levels levels hlt hfit := by
    have := hy.depth_le_levels (levels - 1) (by omega) hfit.2.1
    have := hn.depth_le_levels (levels - 1) (by omega) hfit.2.2
    exact depth_branch_le_iff.2 ⟨hfit.1, by omega, by omega⟩
  depth_le_bound := by
    have := hy.depth_le_bound
    have := hn.depth_le_bound
    exact depth_branch_le_iff.2 ⟨by omega, by omega, by omega⟩

theorem bind {name : String} {value body : Expr} (hv : Charged room bound value)
    (hb : Charged room bound body) : Charged (room + 1) (bound + 1) (bind name value body) where
  depth_le_levels levels hlt hfit := by
    have := hv.depth_le_levels (levels - 1) (by omega) hfit.1
    have := hb.depth_le_levels (levels - 1) (by omega) hfit.2
    exact depth_bind_le_iff.2 ⟨by omega, by omega⟩
  depth_le_bound := by
    have := hv.depth_le_bound
    have := hb.depth_le_bound
    exact depth_bind_le_iff.2 ⟨by omega, by omega⟩

/-- A minus sign before a number gives a number, and a new node before anything else. -/
theorem negated {inner : Expr} (h : Charged room bound inner) :
    Charged (room + 1) (bound + 1) (negated inner) := by
  unfold Expr.negated
  split
  · exact leaf rfl (by omega)
  · exact leaf rfl (by omega)
  · exact h.unary

end Charged

theorem isInfix_of_operator? {i i' : Input} {tight : Nat} {op : Operator}
    (h : i.operator? tight = some (op, i')) : ∀ f, op = .func f → f.isInfix := by
  rintro f rfl
  unfold Input.operator? at h
  split at h
  · obtain ⟨op', hop, heq⟩ := Option.map_eq_some_iff.1 h
    cases heq
    unfold Operator.at? at hop
    split at hop <;> cases hop <;> rfl
  · cases h

namespace Reading

open Parse

/-- The greatest depth of a chain of the operators below a level. -/
def deepestAt (above room : Nat) : Nat := deepest room + 1 + (above + 1) * room

theorem deepestAt_le_succ (above room : Nat) :
    deepestAt above room + 1 ≤ deepestAt above (room + 1) := by
  have := deepest_lt_succ room
  have : (above + 1) * (room + 1) = (above + 1) * room + (above + 1) := Nat.mul_succ _ _
  unfold deepestAt
  omega

theorem deepestAt_succ (above room : Nat) :
    deepestAt (above + 1) room = deepestAt above room + room := by
  have : (above + 1 + 1) * room = (above + 1) * room + room := Nat.succ_mul _ _
  unfold deepestAt
  omega

/-- A choice over the loosest chain is as deep as a tree gets with one level more. -/
theorem deepest_eq_deepestAt (room : Nat) :
    deepest (room + 2) = deepestAt Operator.levels (room + 1) + 1 := by
  unfold deepestAt Operator.levels
  rw [deepest]
  omega

theorem deepestAt_le_deepest (room : Nat) : deepestAt Operator.levels room ≤ deepest (room + 1) := by
  cases room with
  | zero => decide
  | succ room =>
    rw [deepest_eq_deepestAt]
    omega

mutual

/-- An expression that opens a level has one level less inside. -/
theorem nested_charged (room : Nat) (i : Input) :
    Satisfies (fun r => ∃ left, room = left + 1 ∧ Charged left (deepest room) r.1)
      (nested room i) := by
  unfold nested
  cases room with
  | zero => exact satisfies_fail
  | succ room =>
    intro hosts r h
    exact ⟨room, rfl, body_charged room i hosts r h⟩
termination_by (room, 0, 0)

theorem body_charged (room : Nat) (i : Input) :
    Satisfies (fun r => Charged room (deepest (room + 1)) r.1) (body room i) := by
  -- Both parts of a binding, and both sides of a choice, are read with the same room.
  unfold body
  dsimp only
  split
  · split
    · refine Satisfies.bind (P := fun _ => True) satisfies_trivial fun name _ => ?_
      refine Satisfies.bind (P := fun _ => True) satisfies_trivial fun i _ => ?_
      refine (nested_charged room i).bind fun value ⟨left, hroom, hv⟩ => ?_
      split
      · refine (nested_charged room _).bind fun rest ⟨left', hroom', hr⟩ => ?_
        obtain rfl : left = left' := by omega
        subst hroom
        exact satisfies_pure ((hv.bind hr).mono (Nat.le_refl _) (deepest_lt_succ _))
      · exact satisfies_fail
    · exact satisfies_fail
  · refine (level_charged Operator.levels room i).bind fun cond hc => ?_
    split
    · exact satisfies_pure (hc.mono (Nat.le_refl _) (deepestAt_le_deepest room))
    · refine (nested_charged room _).bind fun yes ⟨left, hroom, hy⟩ => ?_
      refine Satisfies.bind (P := fun _ => True) satisfies_trivial fun i _ => ?_
      refine (nested_charged room _).bind fun no ⟨left', hroom', hn⟩ => ?_
      obtain rfl : left = left' := by omega
      subst hroom
      have hle : deepest (left + 1) ≤ deepestAt Operator.levels (left + 1) := by
        unfold deepestAt
        omega
      rw [deepest_eq_deepestAt]
      exact satisfies_pure (.branch hc.depth_le_bound (hy.mono (Nat.le_refl _) hle)
        (hn.mono (Nat.le_refl _) hle))
termination_by (room, Operator.levels + 6, 0)

theorem level_charged (above room : Nat) (i : Input) :
    Satisfies (fun r => Charged room (deepestAt above room) r.1) (level above room i) := by
  unfold level
  split
  · exact signed_charged room i
  · rename_i tight
    refine (level_charged tight room i).bind fun r hr => ?_
    rw [deepestAt_succ]
    exact chain_charged tight room r.1 r.2 hr (Nat.le_refl _) (Nat.le_refl _)
termination_by (room, above + 5, 0)

theorem chain_charged (tight room : Nat) (left : Expr) (i : Input) {start bound : Nat}
    (hleft : Charged start bound left) (hroom : room ≤ start)
    (hbound : deepestAt tight room ≤ bound) :
    Satisfies (fun r => Charged start (bound + room) r.1) (chain tight room left i) := by
  -- The links so far took some of the room that the first operand was read with: `start` stays what it
  -- was while `room` goes down, and each link adds one to `bound`.
  unfold chain
  split
  · exact satisfies_pure (hleft.mono (by omega) (by omega))
  · rename_i op i hop
    cases room with
    | zero => exact satisfies_fail
    | succ room =>
      refine (level_charged tight room i).bind fun r hr => ?_
      have hstep := deepestAt_le_succ tight room
      have hnode : Charged (room + 1) (bound + 1) (op.apply left r.1) :=
        .operator (isInfix_of_operator? hop) hleft.depth_le_bound (hr.mono (by omega) (by omega))
      have := chain_charged tight room (op.apply left r.1) r.2 (hnode.mono hroom (Nat.le_refl _)) 
        (by omega) (by omega)
      rwa [Nat.add_right_comm] at this
termination_by (room, 0, 0)

theorem signed_charged (room : Nat) (i : Input) :
    Satisfies (fun r => Charged room (deepestAt 0 room) r.1) (signed room i) := by
  unfold signed
  split
  · cases room with
    | zero => exact satisfies_fail
    | succ room =>
      refine (signed_charged room _).bind fun r hr => ?_
      exact satisfies_pure (hr.negated.mono (Nat.le_refl _) (deepestAt_le_succ 0 room))
  · split
    · cases room with
      | zero => exact satisfies_fail
      | succ room =>
        refine (signed_charged room _).bind fun r hr => ?_
        exact satisfies_pure (hr.unary.mono (Nat.le_refl _) (deepestAt_le_succ 0 room))
    · refine (primary_charged room i).bind fun r hr => ?_
      have := members_charged room r.1 r.2 hr (Nat.le_refl _)
      simpa [deepestAt] using this
termination_by (room, 4, 0)

theorem members_charged (room : Nat) (inner : Expr) (i : Input) {start bound : Nat}
    (hinner : Charged start bound inner) (hroom : room ≤ start) :
    Satisfies (fun r => Charged start (bound + room) r.1) (members room inner i) := by
  unfold members
  split
  · exact satisfies_pure (hinner.mono (by omega) (by omega))
  · rename_i after _
    cases room with
    | zero => exact satisfies_fail
    | succ room =>
      simp only
      split
      · split
        · rename_i field _
          have h := members_charged room (.member inner field) after.advance
            (.member hinner.depth_le_bound) (Nat.le_of_succ_le hroom)
          rwa [Nat.add_right_comm] at h
        · exact satisfies_fail
      · exact satisfies_fail
termination_by (room, 0, 0)

theorem primary_charged (room : Nat) (i : Input) :
    Satisfies (fun r => Charged room (deepest room + 1) r.1) (primary room i) := by
  have hleaf : ∀ {e : Expr}, e.depth = 1 → Charged room (deepest room + 1) e := fun h =>
    .leaf h (by omega)
  unfold primary
  dsimp only
  split
  · exact satisfies_pure (hleaf rfl)
  · exact satisfies_pure (hleaf rfl)
  · refine (nested_charged room _).bind fun inner ⟨left, hroom, h⟩ => ?_
    refine Satisfies.bind (P := fun _ => True) satisfies_trivial fun after _ => ?_
    exact satisfies_pure (h.mono (by omega) (by omega))
  · split
    · exact satisfies_pure (hleaf rfl)
    split
    · exact satisfies_pure (hleaf rfl)
    split
    · refine Satisfies.bind (P := fun _ => True) satisfies_trivial fun key _ => ?_
      refine Satisfies.bind (P := fun _ => True) satisfies_trivial fun handle _ => ?_
      exact satisfies_pure (hleaf rfl)
    split
    · refine Satisfies.bind (P := fun _ => True) satisfies_trivial fun key _ => ?_
      refine Satisfies.bind (P := fun _ => True) satisfies_trivial fun hosts _ => ?_
      split
      · exact satisfies_pure (hleaf rfl)
      · exact satisfies_fail
    split
    · split
      · exact satisfies_fail
      · rename_i func hfunc
        have hinfix := Func.isInfix_of_ofName? hfunc
        split
        · exact satisfies_pure (hleaf rfl)
        · refine (arguments_charged room _).bind fun args ⟨left, hroom, h⟩ => ?_
          subst hroom
          exact satisfies_pure (.call hinfix h)
    · refine Satisfies.bind (P := fun _ => True) satisfies_trivial fun name _ => ?_
      exact satisfies_pure (hleaf rfl)
  · exact satisfies_fail
termination_by (room, 2, 0)

theorem arguments_charged (room : Nat) (i : Input) :
    Satisfies (fun r => ∃ left, room = left + 1 ∧ ∀ e ∈ r.1, Charged left (deepest room) e)
      (arguments room i) := by
  unfold arguments
  refine (nested_charged room i).bind fun arg ⟨left, hroom, harg⟩ => ?_
  dsimp only
  split
  · exact satisfies_pure ⟨left, hroom, List.forall_mem_singleton.2 harg⟩
  · refine Satisfies.bind (P := fun _ => True) satisfies_trivial fun rest _ => ?_
    split
    · refine (arguments_charged room rest).bind fun args ⟨left', hroom', hargs⟩ => ?_
      obtain rfl : left = left' := by omega
      exact satisfies_pure ⟨left, hroom, List.forall_mem_cons.2 ⟨harg, hargs⟩⟩
    · exact satisfies_fail
termination_by (room, 1, i.tokens.length)

end

end Reading

/-- A text is read with the room that the limit leaves inside of the outermost level. -/
theorem parse_charged (source : String) :
    Parse.Satisfies (Charged (maxNesting - 1) (deepest maxNesting)) (parse source) := by
  unfold parse
  split
  · exact Parse.satisfies_throw
  · refine (Reading.nested_charged maxNesting _).bind fun r ⟨left, hroom, h⟩ => ?_
    obtain rfl : left = maxNesting - 1 := by omega
    dsimp only
    split
    · exact Parse.satisfies_pure h
    · exact Parse.satisfies_fail

theorem deepest_maxNesting : deepest maxNesting = 14239 := by decide

/-- A tree that source text gives keeps to the limit on nesting exactly if all of its leads fit, and it
is never deeper than 14239. -/
theorem parse_depth_iff {hosts : Hosts} {source : String} {e : Expr}
    (h : (parseIn hosts source).1 = .ok e) :
    (e.depth ≤ maxNesting ↔ LeadsFit maxNesting e) ∧ e.depth ≤ 14239 := by
  have hcharged := parse_charged source hosts e h
  refine ⟨⟨leadsFit_of_depth_le, hcharged.depth_le_levels maxNesting (by decide)⟩, ?_⟩
  rw [← deepest_maxNesting]
  exact hcharged.depth_le_bound

/-- A product of two names: the text is read, the leads of its tree fit, and so it keeps to the limit. -/
theorem parse_depth_iff_product :
    (parseIn Hosts.empty "a*a").1 = .ok (.call .mul [.var "a", .var "a"]) ∧
      (Expr.call .mul [.var "a", .var "a"]).depth ≤ maxNesting := by
  have h : (parseIn Hosts.empty "a*a").1 = .ok (.call .mul [.var "a", .var "a"]) := by cbv
  have hfit : LeadsFit maxNesting (.call .mul [.var "a", .var "a"]) := by
    simp [LeadsFit, Func.isInfix, OperandsFit, ArgumentsFit, depth, maxNesting]
  exact ⟨h, (parse_depth_iff h).1.2 hfit⟩

set_option maxRecDepth 4000 in
/-- Sixty-three signs take all levels; when their operand is finished the levels are free again, and the
product above it makes the tree one node too deep. -/
theorem parse_exceeds_maxNesting : ∃ e, (parseIn Hosts.empty
    "---------------------------------------------------------------a*a").1 = .ok e ∧
      maxNesting < e.depth := by
  have h : (parseIn Hosts.empty
      "---------------------------------------------------------------a*a").1.toOption.map depth =
        some 65 := by
    cbv
  obtain ⟨e, he, hdepth⟩ := Option.map_eq_some_iff.1 h
  refine ⟨e, ?_, by rw [hdepth]; decide⟩
  revert he
  cases (parseIn Hosts.empty
    "---------------------------------------------------------------a*a").1 with
  | error fault =>
    intro he
    cases he
  | ok tree => exact fun he => congrArg _ (Option.some.inj he)

end Expr

end Barrage
