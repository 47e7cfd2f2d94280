import Barrage.Proofs.Pattern.TwinLeaves

/-!
# Patterns that cannot be told apart

The expressions of a document are compiled in their order, and the units that are served in their place come in the
same order. So the two patterns of a document are one tree with pairs of callables at its places, of which one pattern
has the first and the other the second.

## Main definitions

* `Pattern.Twins` — patterns that differ in nothing but their expressions, which cannot be told apart

## Main results

* `Node.type_of_mem_expressions` — the expressions of a tree give numbers or truth values
* `BuildM.Compiles.twins` — expressions that are compiled, and the units that are served for them
* `Pattern.twins_of_placed` — patterns with such expressions at their places
-/

namespace Barrage

open Barrage.Expr

/-! ### Types of expressions -/

section Types

variable {α : Type}

/-- The expression of a leaf gives a number or a truth value. -/
theorem Leaf.type_of_mem_expressions (leaf : Leaf α) {x : ValueType × α} (hx : x ∈ leaf.expressions) :
    x.1 = .float ∨ x.1 = .bool := by
  cases leaf with
  | wait | emit => exact .inl (congrArg Prod.fst (List.mem_singleton.1 hx))
  | waitUntil => exact .inr (congrArg Prod.fst (List.mem_singleton.1 hx))
  | shiftPhase => cases hx

mutual

/-- The expressions of a tree give numbers or truth values. -/
theorem Node.type_of_mem_expressions (node : Node α) {x : ValueType × α} (hx : x ∈ node.expressions) :
    x.1 = .float ∨ x.1 = .bool :=
  match node with
  | .pattern _ phases => Phase.type_of_mem_expressionsList phases hx
  | .phase phase => Phase.type_of_mem_expressions phase hx
  | .action _ _ children | .sequence _ children | .endBlock _ _ children => Node.type_of_mem_expressionsList children hx
  | .finish child => Node.type_of_mem_expressions child hx
  | .leaf leaf => leaf.type_of_mem_expressions hx

theorem Node.type_of_mem_expressionsList (nodes : List (Node α)) {x : ValueType × α}
    (hx : x ∈ Node.expressionsList nodes) : x.1 = .float ∨ x.1 = .bool :=
  match nodes with
  | [] => nomatch hx
  | node :: rest => (List.mem_append.1 hx).elim (Node.type_of_mem_expressions node)
    (Node.type_of_mem_expressionsList rest)

theorem Node.type_of_mem_expressionsOption (block : Option (Node α)) {x : ValueType × α}
    (hx : x ∈ Node.expressionsOption block) : x.1 = .float ∨ x.1 = .bool :=
  match block with
  | none => nomatch hx
  | some node => Node.type_of_mem_expressions node hx

theorem Phase.type_of_mem_expressions (phase : Phase α) {x : ValueType × α} (hx : x ∈ phase.expressions) :
    x.1 = .float ∨ x.1 = .bool :=
  match phase with
  | .mk _ children atEnd atCut => (List.mem_append.1 hx).elim (Node.type_of_mem_expressionsList children)
    fun hblocks => (List.mem_append.1 hblocks).elim (Node.type_of_mem_expressionsOption atEnd)
      (Node.type_of_mem_expressionsOption atCut)

theorem Phase.type_of_mem_expressionsList (phases : List (Phase α)) {x : ValueType × α}
    (hx : x ∈ Phase.expressionsList phases) : x.1 = .float ∨ x.1 = .bool :=
  match phases with
  | [] => nomatch hx
  | phase :: rest => (List.mem_append.1 hx).elim (Phase.type_of_mem_expressions phase)
    (Phase.type_of_mem_expressionsList rest)

end

/-- The same for documents. -/
theorem PatternDocument.type_of_mem_expressions (doc : PatternDocument) {x : ValueType × String}
    (hx : x ∈ doc.expressions) : x.1 = .float ∨ x.1 = .bool := by
  obtain ⟨phase, -, hphase⟩ := List.mem_flatMap.1 hx
  exact Node.type_of_mem_expressionsList phase.children hphase

end Types

/-! ### Expressions that are replaced twice -/

section Maps

variable {α β γ : Type}

mutual

theorem Node.map_map (f : α → β) (g : β → γ) : (node : Node α) → (node.map f).map g = node.map (g ∘ f)
  | .pattern props phases => congrArg (Node.pattern props) (Phase.mapList_map f g phases)
  | .phase phase => congrArg Node.phase (Phase.map_map f g phase)
  | .action wait blocking children => congrArg (Node.action wait blocking) (Node.mapList_map f g children)
  | .sequence wait children => congrArg (Node.sequence wait) (Node.mapList_map f g children)
  | .endBlock wait blocking children => congrArg (Node.endBlock wait blocking) (Node.mapList_map f g children)
  | .finish child => congrArg Node.finish (Node.map_map f g child)
  | .leaf leaf => by cases leaf <;> rfl

theorem Node.mapList_map (f : α → β) (g : β → γ) : (nodes : List (Node α)) →
    Node.mapList g (Node.mapList f nodes) = Node.mapList (g ∘ f) nodes
  | [] => rfl
  | node :: rest => congrArg₂ List.cons (Node.map_map f g node) (Node.mapList_map f g rest)

theorem Node.mapOption_map (f : α → β) (g : β → γ) : (block : Option (Node α)) →
    Node.mapOption g (Node.mapOption f block) = Node.mapOption (g ∘ f) block
  | none => rfl
  | some node => congrArg some (Node.map_map f g node)

theorem Phase.map_map (f : α → β) (g : β → γ) : (phase : Phase α) → (phase.map f).map g = phase.map (g ∘ f)
  | .mk props children atEnd atCut => by
    rw [Phase.map, Phase.map, Phase.map, Node.mapList_map f g children, Node.mapOption_map f g atEnd,
      Node.mapOption_map f g atCut]

theorem Phase.mapList_map (f : α → β) (g : β → γ) : (phases : List (Phase α)) →
    Phase.mapList g (Phase.mapList f phases) = Phase.mapList (g ∘ f) phases
  | [] => rfl
  | phase :: rest => congrArg₂ List.cons (Phase.map_map f g phase) (Phase.mapList_map f g rest)

end

theorem Pattern.map_map (f : α → β) (g : β → γ) (pattern : Pattern α) : (pattern.map f).map g = pattern.map (g ∘ f) :=
  congrArg (Pattern.mk pattern.props) (Phase.mapList_map f g pattern.phases)

/-- Results at their places, each of which is replaced. -/
theorem PlacedFrom.map {n : Nat} {bs : List β} {g : Nat → β} (h : PlacedFrom n bs g) (f : β → γ) :
    PlacedFrom n (bs.map f) (f ∘ g) := by
  intro i c hc
  rw [List.getElem?_map] at hc
  obtain ⟨b, hb, rfl⟩ := Option.map_eq_some_iff.1 hc
  exact congrArg f (h i b hb)

end Maps

/-! ### Twins -/

variable {base : Hosts}

/-- Patterns that differ in nothing but their expressions, which cannot be told apart. -/
def Pattern.Twins (base : Hosts) (pattern pattern' : Pattern Callable) : Prop :=
  ∃ pairs : Pattern (TwinPair base), pattern = pairs.map TwinPair.direct ∧ pattern' = pairs.map TwinPair.served

/-- Callables that cannot be told apart are pairs of such callables. -/
theorem exists_twinPairs {cs cs' : List Callable} (h : List.Forall₂ (Callable.Twins base) cs cs') :
    ∃ pairs : List (TwinPair base), pairs.map TwinPair.direct = cs ∧ pairs.map TwinPair.served = cs' := by
  induction h with
  | nil => exact ⟨[], rfl, rfl⟩
  | @cons c c' cs cs' htwins _ ih =>
    obtain ⟨pairs, rfl, rfl⟩ := ih
    exact ⟨⟨c, c', htwins⟩ :: pairs, rfl, rfl⟩

/-- Patterns with callables at their places that cannot be told apart. -/
theorem Pattern.twins_of_placed {cs cs' : List Callable} (h : List.Forall₂ (Callable.Twins base) cs cs')
    {numbered : Pattern Nat} {pattern : Pattern Callable} (hpattern : ∀ g, PlacedFrom 0 cs g → pattern = numbered.map g) :
    ∃ g, PlacedFrom 0 cs' g ∧ pattern.Twins base (numbered.map g) := by
  obtain ⟨pairs, rfl, rfl⟩ := exists_twinPairs h
  obtain ⟨pairAt, hpairAt⟩ := exists_placedFrom 0 pairs
  refine ⟨TwinPair.served ∘ pairAt, hpairAt.map _, numbered.map pairAt, ?_, (numbered.map_map _ _).symm⟩
  rw [hpattern _ (hpairAt.map _), numbered.map_map]

namespace BuildM

variable {hosts later : Hosts} {xs : List (ValueType × String)} {es : List Expr} {cs : List Callable}

/-- Reading texts only adds timers. -/
theorem Compiles.grows (h : Compiles Prod.snd Leaf.request hosts xs es cs later) : hosts.Grows later := by
  induction h with
  | nil => exact .refl _
  | @cons hosts _ x _ _ _ _ _ _ _ _ _ ih => exact (grows_parseIn hosts x.2).trans ih

/-- Every tree was read over some host objects. -/
theorem Compiles.parses (h : Compiles Prod.snd Leaf.request hosts xs es cs later) :
    List.Forall₂ (fun x e => ∃ hosts, (parseIn hosts x.2).1 = .ok e) xs es := by
  induction h with
  | nil => exact .nil
  | cons hparse _ _ _ ih => exact .cons ⟨_, hparse⟩ ih

/-- Expressions that are compiled and compare no floats, and the units that they were recorded as. -/
theorem Compiles.twins (h : Compiles Prod.snd Leaf.request hosts xs es cs later) (hlater : later.Grows base)
    (htypes : ∀ x ∈ xs, x.1 = .float ∨ x.1 = .bool)
    (hfloats : ∀ e ∈ es, e.comparesFloats (Scope.of Leaf.params) = false) {file : FileId} {n : Nat}
    {units : List BakedUnit} (hloaded : List.Forall₂ RecordedUnit.LoadedAs (((xs.map Leaf.request).zip es).mapIdx
      fun i x => (x.1.recordedUnit x.2 file (n + i), x.2.unitLines)) units) :
    List.Forall₂ (Callable.Twins base) cs
      (List.zipWith (fun x unit => (Leaf.request x).callable (.unit unit)) xs units) := by
  induction h generalizing n units with
  | nil => exact .nil
  | @cons hosts _ x xs e es code cs hparse haccepts hcode hrest ih =>
    obtain ⟨htype, htypes⟩ := List.forall_mem_cons.1 htypes
    obtain ⟨hfloat, hfloats⟩ := List.forall_mem_cons.1 hfloats
    rw [List.map_cons, List.zip_cons_cons, List.mapIdx_cons] at hloaded
    cases hloaded with
    | @cons _ unit _ units hunit hunits =>
      -- Texts that are read later add timers behind those that the tree holds, whose handles stay what they are.
      have hheld := (objectsHeld_of_parse hparse).grows (hrest.grows.trans hlater)
      have htimer : x.1 ≠ .timer := by
        rcases htype with h | h <;> simp [h]
      refine .cons (Leaf.twins_of_loadedAs haccepts htimer hfloat hheld hcode hunit) ?_
      refine @ih hlater htypes hfloats (n + 1) units ?_
      simpa only [Nat.add_assoc, Nat.add_comm 1] using hunits

end BuildM

end Barrage
