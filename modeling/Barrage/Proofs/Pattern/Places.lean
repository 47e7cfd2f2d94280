import Barrage.Pattern.Load
import Barrage.Proofs.Bake.Sessions

/-!
# Expressions of a pattern by their places

Compiling a tree replaces its expressions one after the other, and nothing else of the tree. So what comes
out is told by a list: the expressions in the order of the document are compiled, and the tree is the same
with the results at their places. The blocks for the end and the cut of a phase are taken out of its children
afterwards, and each expression goes with its block.

## Main definitions

* `Node.expressions`, `PatternDocument.expressions` — the expressions, with the types they are used at
* `Node.map`, `Pattern.map` — a tree with other expressions
* `Node.numberFrom`, `PatternDocument.numbered` — a tree whose expressions are their places

## Main results

* `Node.gives_compileWith`, `Node.exists_mapM_of_compileWith` — compiling a tree and compiling its expressions
* `PatternDocument.gives_compile_iff` — the same for documents
-/

namespace Barrage

open BuildM

variable {α β ε : Type}

/-! ### Trees -/

namespace Leaf

/-- The expression of a leaf. -/
def expressions : Leaf α → List (ValueType × α)
  | wait seconds => [(.float, seconds)]
  | waitUntil condition => [(.bool, condition)]
  | emit _ value => [(.float, value)]
  | shiftPhase => []

/-- A leaf with another expression. -/
def map (g : α → β) : Leaf α → Leaf β
  | wait seconds => wait (g seconds)
  | waitUntil condition => waitUntil (g condition)
  | emit label value => emit label (g value)
  | shiftPhase => shiftPhase

/-- A leaf whose expression is a place. -/
def numberFrom (n : Nat) (leaf : Leaf α) : Leaf Nat := leaf.map fun _ => n

end Leaf

mutual

/-- The expressions of a tree in the order of the document. -/
def Node.expressions : Node α → List (ValueType × α)
  | .pattern _ phases => Phase.expressionsList phases
  | .phase phase => phase.expressions
  | .action _ _ children | .sequence _ children | .endBlock _ _ children => Node.expressionsList children
  | .finish child => child.expressions
  | .leaf leaf => leaf.expressions

/-- The expressions of some trees. -/
def Node.expressionsList : List (Node α) → List (ValueType × α)
  | [] => []
  | node :: rest => node.expressions ++ Node.expressionsList rest

/-- The expressions of a block, if there is one. -/
def Node.expressionsOption : Option (Node α) → List (ValueType × α)
  | none => []
  | some node => node.expressions

/-- The expressions of a phase. -/
def Phase.expressions : Phase α → List (ValueType × α)
  | .mk _ children atEnd atCut =>
    Node.expressionsList children ++ (Node.expressionsOption atEnd ++ Node.expressionsOption atCut)

/-- The expressions of some phases. -/
def Phase.expressionsList : List (Phase α) → List (ValueType × α)
  | [] => []
  | phase :: rest => phase.expressions ++ Phase.expressionsList rest

end

mutual

/-- A tree with other expressions. -/
def Node.map (g : α → β) : Node α → Node β
  | .pattern props phases => .pattern props (Phase.mapList g phases)
  | .phase phase => .phase (phase.map g)
  | .action wait blocking children => .action wait blocking (Node.mapList g children)
  | .sequence wait children => .sequence wait (Node.mapList g children)
  | .endBlock wait blocking children => .endBlock wait blocking (Node.mapList g children)
  | .finish child => .finish (child.map g)
  | .leaf leaf => .leaf (leaf.map g)

/-- Trees with other expressions. -/
def Node.mapList (g : α → β) : List (Node α) → List (Node β)
  | [] => []
  | node :: rest => node.map g :: Node.mapList g rest

/-- A block with other expressions. -/
def Node.mapOption (g : α → β) : Option (Node α) → Option (Node β)
  | none => none
  | some node => some (node.map g)

/-- A phase with other expressions. -/
def Phase.map (g : α → β) : Phase α → Phase β
  | .mk props children atEnd atCut =>
    .mk props (Node.mapList g children) (Node.mapOption g atEnd) (Node.mapOption g atCut)

/-- Phases with other expressions. -/
def Phase.mapList (g : α → β) : List (Phase α) → List (Phase β)
  | [] => []
  | phase :: rest => phase.map g :: Phase.mapList g rest

end

/-- An expression at the same type as another one. -/
abbrev replaceIn (g : α → β) (x : ValueType × α) : ValueType × β := (x.1, g x.2)

theorem Leaf.expressions_map (g : α → β) (leaf : Leaf α) :
    (leaf.map g).expressions = leaf.expressions.map (replaceIn g) := by
  cases leaf <;> rfl

mutual

/-- The expressions of a tree with other expressions. -/
theorem Node.expressions_map (g : α → β) (node : Node α) :
    (node.map g).expressions = node.expressions.map (replaceIn g) :=
  match node with
  | .pattern _ phases => Phase.expressionsList_map g phases
  | .phase phase => Phase.expressions_map g phase
  | .action _ _ children | .sequence _ children | .endBlock _ _ children => Node.expressionsList_map g children
  | .finish child => Node.expressions_map g child
  | .leaf leaf => leaf.expressions_map g

theorem Node.expressionsList_map (g : α → β) (nodes : List (Node α)) :
    Node.expressionsList (Node.mapList g nodes) = (Node.expressionsList nodes).map (replaceIn g) :=
  match nodes with
  | [] => rfl
  | node :: rest => by
    rw [Node.mapList, Node.expressionsList, Node.expressionsList, List.map_append, Node.expressions_map g node,
      Node.expressionsList_map g rest]

theorem Node.expressionsOption_map (g : α → β) (block : Option (Node α)) :
    Node.expressionsOption (Node.mapOption g block) = (Node.expressionsOption block).map (replaceIn g) :=
  match block with
  | none => rfl
  | some node => Node.expressions_map g node

theorem Phase.expressions_map (g : α → β) (phase : Phase α) :
    (phase.map g).expressions = phase.expressions.map (replaceIn g) :=
  match phase with
  | .mk _ children atEnd atCut => by
    rw [Phase.map, Phase.expressions, Phase.expressions, List.map_append, List.map_append,
      Node.expressionsList_map g children, Node.expressionsOption_map g atEnd, Node.expressionsOption_map g atCut]

theorem Phase.expressionsList_map (g : α → β) (phases : List (Phase α)) :
    Phase.expressionsList (Phase.mapList g phases) = (Phase.expressionsList phases).map (replaceIn g) :=
  match phases with
  | [] => rfl
  | phase :: rest => by
    rw [Phase.mapList, Phase.expressionsList, Phase.expressionsList, List.map_append, Phase.expressions_map g phase,
      Phase.expressionsList_map g rest]

end

mutual

/-- A tree whose expressions are their places, counted from a number. -/
def Node.numberFrom (n : Nat) : Node α → Node Nat
  | .pattern props phases => .pattern props (Phase.numberListFrom n phases)
  | .phase phase => .phase (phase.numberFrom n)
  | .action wait blocking children => .action wait blocking (Node.numberListFrom n children)
  | .sequence wait children => .sequence wait (Node.numberListFrom n children)
  | .endBlock wait blocking children => .endBlock wait blocking (Node.numberListFrom n children)
  | .finish child => .finish (child.numberFrom n)
  | .leaf leaf => .leaf (leaf.numberFrom n)

/-- Trees whose expressions are their places. -/
def Node.numberListFrom (n : Nat) : List (Node α) → List (Node Nat)
  | [] => []
  | node :: rest => node.numberFrom n :: Node.numberListFrom (n + node.expressions.length) rest

/-- A block whose expressions are their places. -/
def Node.numberOptionFrom (n : Nat) : Option (Node α) → Option (Node Nat)
  | none => none
  | some node => some (node.numberFrom n)

/-- A phase whose expressions are their places. -/
def Phase.numberFrom (n : Nat) : Phase α → Phase Nat
  | .mk props children atEnd atCut =>
    let afterChildren := n + (Node.expressionsList children).length
    .mk props (Node.numberListFrom n children) (Node.numberOptionFrom afterChildren atEnd)
      (Node.numberOptionFrom (afterChildren + (Node.expressionsOption atEnd).length) atCut)

/-- Phases whose expressions are their places. -/
def Phase.numberListFrom (n : Nat) : List (Phase α) → List (Phase Nat)
  | [] => []
  | phase :: rest => phase.numberFrom n :: Phase.numberListFrom (n + phase.expressions.length) rest

end

/-! ### Places -/

/-- Results that stand at the places from a number on. -/
def PlacedFrom (n : Nat) (bs : List β) (g : Nat → β) : Prop := ∀ i b, bs[i]? = some b → g (n + i) = b

instance : Nonempty BakedUnit := ⟨⟨"", ⟨[], .float⟩, ⟨[], []⟩⟩⟩

instance : Nonempty Callable := Nonempty.map Callable.ofUnit inferInstance

theorem exists_placedFrom [Nonempty β] (n : Nat) (bs : List β) : ∃ g, PlacedFrom n bs g := by
  obtain ⟨b⟩ := ‹Nonempty β›
  refine ⟨fun k => bs[k - n]?.getD b, fun i b' hb => ?_⟩
  change bs[n + i - n]?.getD b = b'
  rw [Nat.add_sub_cancel_left, hb, Option.getD_some]

theorem placedFrom_append {n : Nat} {bs cs : List β} {g : Nat → β} :
    PlacedFrom n (bs ++ cs) g ↔ PlacedFrom n bs g ∧ PlacedFrom (n + bs.length) cs g := by
  constructor
  · refine fun h => ⟨fun i b hb => h i b ?_, fun i b hb => ?_⟩
    · obtain ⟨hi, -⟩ := List.getElem?_eq_some_iff.1 hb
      rwa [List.getElem?_append_left hi]
    · rw [Nat.add_assoc]
      refine h (bs.length + i) b ?_
      rwa [List.getElem?_append_right (Nat.le_add_right _ _), Nat.add_sub_cancel_left]
  · rintro ⟨hbs, hcs⟩ i b hb
    rcases Nat.lt_or_ge i bs.length with hi | hi
    · rw [List.getElem?_append_left hi] at hb
      exact hbs i b hb
    · rw [List.getElem?_append_right hi] at hb
      have hplace := hcs (i - bs.length) b hb
      rwa [Nat.add_assoc, Nat.add_sub_cancel' hi] at hplace

section Compile

variable (f : ValueType → α → BuildM ε β)

/-- Compiling an expression at the type it is used at. -/
abbrev compileAt (x : ValueType × α) : BuildM ε β := f x.1 x.2

variable {f} {state after : BuildState} {n : Nat} {bs : List β} {g : Nat → β}

theorem Leaf.gives_compileWith (leaf : Leaf α) (h : Gives (leaf.expressions.mapM (compileAt f)) state bs after)
    (hg : PlacedFrom n bs g) :
    Gives (leaf.compileWith f) state ((leaf.numberFrom n).map g) after := by
  have hone : ∀ {ty : ValueType} {a : α}, Gives ([(ty, a)].mapM (compileAt f)) state bs after →
      Gives (f ty a) state (g n) after := by
    intro ty a h
    obtain ⟨b, mid, bs', hb, hbs, rfl⟩ := gives_mapM_cons.1 h
    obtain ⟨rfl, rfl⟩ := gives_mapM_nil.1 hbs
    have hb' : g n = b := hg 0 b rfl
    rwa [hb']
  cases leaf with
  | wait | waitUntil | emit => exact gives_bind.2 ⟨_, _, hone h, gives_pure.2 ⟨rfl, rfl⟩⟩
  | shiftPhase => exact gives_pure.2 ⟨rfl, (gives_mapM_nil.1 h).2⟩

mutual

/-- If the expressions of a tree are compiled, so is the tree, with the results at their places. -/
theorem Node.gives_compileWith (node : Node α) {state after : BuildState} {n : Nat} {bs : List β}
    (h : Gives (node.expressions.mapM (compileAt f)) state bs after) (hg : PlacedFrom n bs g) :
    Gives (node.compileWith f) state ((node.numberFrom n).map g) after :=
  match node with
  | .pattern _ phases => gives_bind.2 ⟨_, _, Phase.gives_compileList phases h hg, gives_pure.2 ⟨rfl, rfl⟩⟩
  | .phase phase => gives_bind.2 ⟨_, _, Phase.gives_compileWith phase h hg, gives_pure.2 ⟨rfl, rfl⟩⟩
  | .action _ _ children | .sequence _ children | .endBlock _ _ children =>
    gives_bind.2 ⟨_, _, Node.gives_compileList children h hg, gives_pure.2 ⟨rfl, rfl⟩⟩
  | .finish child => gives_bind.2 ⟨_, _, Node.gives_compileWith child h hg, gives_pure.2 ⟨rfl, rfl⟩⟩
  | .leaf leaf => gives_bind.2 ⟨_, _, leaf.gives_compileWith h hg, gives_pure.2 ⟨rfl, rfl⟩⟩

theorem Node.gives_compileList (nodes : List (Node α)) {state after : BuildState} {n : Nat} {bs : List β}
    (h : Gives ((Node.expressionsList nodes).mapM (compileAt f)) state bs after) (hg : PlacedFrom n bs g) :
    Gives (Node.compileList f nodes) state (Node.mapList g (Node.numberListFrom n nodes)) after :=
  match nodes with
  | [] => gives_pure.2 ⟨rfl, (gives_mapM_nil.1 h).2⟩
  | node :: rest => by
    obtain ⟨cs, mid, cs', hcs, hcs', rfl⟩ := gives_mapM_append.1 h
    obtain ⟨hfirst, hrest⟩ := placedFrom_append.1 hg
    rw [length_of_gives_mapM hcs] at hrest
    exact gives_bind.2 ⟨_, _, Node.gives_compileWith node hcs hfirst,
      gives_bind.2 ⟨_, _, Node.gives_compileList rest hcs' hrest, gives_pure.2 ⟨rfl, rfl⟩⟩⟩

theorem Node.gives_compileOption (block : Option (Node α)) {state after : BuildState} {n : Nat} {bs : List β}
    (h : Gives ((Node.expressionsOption block).mapM (compileAt f)) state bs after) (hg : PlacedFrom n bs g) :
    Gives (Node.compileOption f block) state (Node.mapOption g (Node.numberOptionFrom n block)) after :=
  match block with
  | none => gives_pure.2 ⟨rfl, (gives_mapM_nil.1 h).2⟩
  | some node => gives_bind.2 ⟨_, _, Node.gives_compileWith node h hg, gives_pure.2 ⟨rfl, rfl⟩⟩

theorem Phase.gives_compileWith (phase : Phase α) {state after : BuildState} {n : Nat} {bs : List β}
    (h : Gives (phase.expressions.mapM (compileAt f)) state bs after) (hg : PlacedFrom n bs g) :
    Gives (phase.compileWith f) state ((phase.numberFrom n).map g) after :=
  match phase with
  | .mk props children atEnd atCut => by
    obtain ⟨cs, mid, cs', hcs, hcs', rfl⟩ := gives_mapM_append.1 h
    obtain ⟨ds, mid', ds', hds, hds', rfl⟩ := gives_mapM_append.1 hcs'
    obtain ⟨hchildren, hblocks⟩ := placedFrom_append.1 hg
    obtain ⟨hatEnd, hatCut⟩ := placedFrom_append.1 hblocks
    rw [length_of_gives_mapM hcs] at hatEnd hatCut
    rw [length_of_gives_mapM hds] at hatCut
    exact gives_bind.2 ⟨_, _, Node.gives_compileList children hcs hchildren,
      gives_bind.2 ⟨_, _, Node.gives_compileOption atEnd hds hatEnd,
        gives_bind.2 ⟨_, _, Node.gives_compileOption atCut hds' hatCut, gives_pure.2 ⟨rfl, rfl⟩⟩⟩⟩

theorem Phase.gives_compileList (phases : List (Phase α)) {state after : BuildState} {n : Nat} {bs : List β}
    (h : Gives ((Phase.expressionsList phases).mapM (compileAt f)) state bs after) (hg : PlacedFrom n bs g) :
    Gives (Phase.compileList f phases) state (Phase.mapList g (Phase.numberListFrom n phases)) after :=
  match phases with
  | [] => gives_pure.2 ⟨rfl, (gives_mapM_nil.1 h).2⟩
  | phase :: rest => by
    obtain ⟨cs, mid, cs', hcs, hcs', rfl⟩ := gives_mapM_append.1 h
    obtain ⟨hfirst, hrest⟩ := placedFrom_append.1 hg
    rw [length_of_gives_mapM hcs] at hrest
    exact gives_bind.2 ⟨_, _, Phase.gives_compileWith phase hcs hfirst,
      gives_bind.2 ⟨_, _, Phase.gives_compileList rest hcs' hrest, gives_pure.2 ⟨rfl, rfl⟩⟩⟩

end

mutual

/-- If a tree is compiled, so are its expressions. -/
theorem Node.exists_mapM_of_compileWith (node : Node α) {node' : Node β} {state after : BuildState}
    (h : Gives (node.compileWith f) state node' after) :
    ∃ bs, Gives (node.expressions.mapM (compileAt f)) state bs after := by
  match node with
  | .pattern _ phases =>
    obtain ⟨phases', mid, hphases, hpure⟩ := gives_bind.1 h
    rw [← (gives_pure.1 hpure).2]
    exact Phase.exists_mapM_of_compileList phases hphases
  | .phase phase =>
    obtain ⟨phase', mid, hphase, hpure⟩ := gives_bind.1 h
    rw [← (gives_pure.1 hpure).2]
    exact Phase.exists_mapM_of_compileWith phase hphase
  | .action _ _ children | .sequence _ children | .endBlock _ _ children =>
    obtain ⟨children', mid, hchildren, hpure⟩ := gives_bind.1 h
    rw [← (gives_pure.1 hpure).2]
    exact Node.exists_mapM_of_compileList children hchildren
  | .finish child =>
    obtain ⟨child', mid, hchild, hpure⟩ := gives_bind.1 h
    rw [← (gives_pure.1 hpure).2]
    exact Node.exists_mapM_of_compileWith child hchild
  | .leaf leaf =>
    obtain ⟨leaf', mid, hleaf, hpure⟩ := gives_bind.1 h
    rw [← (gives_pure.1 hpure).2]
    cases leaf with
    | wait | waitUntil | emit =>
      obtain ⟨b, mid', hb, hpure'⟩ := gives_bind.1 hleaf
      rw [← (gives_pure.1 hpure').2]
      exact ⟨[b], gives_mapM_cons.2 ⟨b, mid', [], hb, gives_mapM_nil.2 ⟨rfl, rfl⟩, rfl⟩⟩
    | shiftPhase => exact ⟨[], gives_mapM_nil.2 ⟨rfl, (gives_pure.1 hleaf).2⟩⟩

theorem Node.exists_mapM_of_compileList (nodes : List (Node α)) {nodes' : List (Node β)}
    {state after : BuildState} (h : Gives (Node.compileList f nodes) state nodes' after) :
    ∃ bs, Gives ((Node.expressionsList nodes).mapM (compileAt f)) state bs after := by
  match nodes with
  | [] => exact ⟨[], gives_mapM_nil.2 ⟨rfl, (gives_pure.1 h).2⟩⟩
  | node :: rest =>
    obtain ⟨node', mid, hnode, h⟩ := gives_bind.1 h
    obtain ⟨rest', mid', hrest, hpure⟩ := gives_bind.1 h
    rw [← (gives_pure.1 hpure).2]
    obtain ⟨bs, hbs⟩ := Node.exists_mapM_of_compileWith node hnode
    obtain ⟨cs, hcs⟩ := Node.exists_mapM_of_compileList rest hrest
    exact ⟨bs ++ cs, gives_mapM_append.2 ⟨bs, mid, cs, hbs, hcs, rfl⟩⟩

theorem Node.exists_mapM_of_compileOption (block : Option (Node α)) {block' : Option (Node β)}
    {state after : BuildState} (h : Gives (Node.compileOption f block) state block' after) :
    ∃ bs, Gives ((Node.expressionsOption block).mapM (compileAt f)) state bs after := by
  match block with
  | none => exact ⟨[], gives_mapM_nil.2 ⟨rfl, (gives_pure.1 h).2⟩⟩
  | some node =>
    obtain ⟨node', mid, hnode, hpure⟩ := gives_bind.1 h
    rw [← (gives_pure.1 hpure).2]
    exact Node.exists_mapM_of_compileWith node hnode

theorem Phase.exists_mapM_of_compileWith (phase : Phase α) {phase' : Phase β} {state after : BuildState}
    (h : Gives (phase.compileWith f) state phase' after) :
    ∃ bs, Gives (phase.expressions.mapM (compileAt f)) state bs after := by
  match phase with
  | .mk props children atEnd atCut =>
    obtain ⟨children', mid, hchildren, h⟩ := gives_bind.1 h
    obtain ⟨atEnd', mid', hatEnd, h⟩ := gives_bind.1 h
    obtain ⟨atCut', mid'', hatCut, hpure⟩ := gives_bind.1 h
    rw [← (gives_pure.1 hpure).2]
    obtain ⟨bs, hbs⟩ := Node.exists_mapM_of_compileList children hchildren
    obtain ⟨cs, hcs⟩ := Node.exists_mapM_of_compileOption atEnd hatEnd
    obtain ⟨ds, hds⟩ := Node.exists_mapM_of_compileOption atCut hatCut
    exact ⟨bs ++ (cs ++ ds), gives_mapM_append.2 ⟨bs, mid, _, hbs,
      gives_mapM_append.2 ⟨cs, mid', ds, hcs, hds, rfl⟩, rfl⟩⟩

theorem Phase.exists_mapM_of_compileList (phases : List (Phase α)) {phases' : List (Phase β)}
    {state after : BuildState} (h : Gives (Phase.compileList f phases) state phases' after) :
    ∃ bs, Gives ((Phase.expressionsList phases).mapM (compileAt f)) state bs after := by
  match phases with
  | [] => exact ⟨[], gives_mapM_nil.2 ⟨rfl, (gives_pure.1 h).2⟩⟩
  | phase :: rest =>
    obtain ⟨phase', mid, hphase, h⟩ := gives_bind.1 h
    obtain ⟨rest', mid', hrest, hpure⟩ := gives_bind.1 h
    rw [← (gives_pure.1 hpure).2]
    obtain ⟨bs, hbs⟩ := Phase.exists_mapM_of_compileWith phase hphase
    obtain ⟨cs, hcs⟩ := Phase.exists_mapM_of_compileList rest hrest
    exact ⟨bs ++ cs, gives_mapM_append.2 ⟨bs, mid, cs, hbs, hcs, rfl⟩⟩

end

end Compile

/-! ### Documents -/

namespace Phase

theorem mapList_eq_map (g : α → β) (phases : List (Phase α)) : mapList g phases = phases.map (map g) := by
  induction phases with
  | nil => rfl
  | cons phase rest ih => exact congrArg (phase.map g :: ·) ih

/-- The blocks of a phase are sorted out by their kinds, whatever the expressions are. -/
theorem sortChildren_map (g : α → β) (atEnd atCut : Option (Node α)) (nodes : List (Node α)) :
    sortChildren (Node.mapOption g atEnd) (Node.mapOption g atCut) (Node.mapList g nodes) =
      (sortChildren atEnd atCut nodes).map fun r =>
        (Node.mapList g r.1, Node.mapOption g r.2.1, Node.mapOption g r.2.2) := by
  have hsome : ∀ block : Option (Node α), (Node.mapOption g block).isSome = block.isSome := by
    rintro (_ | _) <;> rfl
  induction nodes generalizing atEnd atCut with
  | nil => rfl
  | cons node rest ih =>
    have hkept : ∀ (node' : Node β), (sortChildren (Node.mapOption g atEnd) (Node.mapOption g atCut)
        (Node.mapList g rest) >>= fun r => .ok (node' :: r.1, r.2.1, r.2.2)) =
          (sortChildren atEnd atCut rest).map fun r =>
            (node' :: Node.mapList g r.1, Node.mapOption g r.2.1, Node.mapOption g r.2.2) := by
      intro node'
      rw [ih]
      cases sortChildren atEnd atCut rest <;> rfl
    cases node with
    | endBlock wait blocking children =>
      simp only [Node.mapList, Node.map, sortChildren, hsome]
      split
      · rfl
      · exact ih (some (.endBlock wait blocking children)) atCut
    | finish child =>
      simp only [Node.mapList, Node.map, sortChildren, hsome]
      split
      · rfl
      · exact ih atEnd (some child)
    | pattern | phase | action | sequence | leaf =>
      refine (hkept _).trans ?_
      simp only [sortChildren]
      cases sortChildren atEnd atCut rest <;> rfl

theorem ofChildren_map (g : α → β) (props : PhaseProps) (nodes : List (Node α)) :
    ofChildren props (Node.mapList g nodes) = (ofChildren props nodes).map (map g) := by
  have hsort := sortChildren_map g none none nodes
  change sortChildren none none _ = _ at hsort
  rw [ofChildren, hsort, ofChildren]
  cases sortChildren none none nodes <;> rfl

theorem inherit_map (g : α → β) (props : PatternProps) (phase : Phase α) :
    inherit props (phase.map g) = (inherit props phase).map g := by
  cases phase
  rfl

end Phase

namespace Pattern

/-- A pattern with other expressions. -/
def map (g : α → β) (pattern : Pattern α) : Pattern β := ⟨pattern.props, Phase.mapList g pattern.phases⟩

theorem ofPhases_map (g : α → β) (props : PatternProps) (phases : List (Phase α)) :
    ofPhases props (Phase.mapList g phases) = (ofPhases props phases).map g := by
  simp only [ofPhases, map, Phase.mapList_eq_map, List.map_map, Function.comp_def, Phase.inherit_map]

end Pattern

namespace PhaseDocument

/-- Phases whose expressions are their places, counted from a number. -/
def numberedFrom (n : Nat) : List PhaseDocument → Except MachineError (List (Phase Nat))
  | [] => .ok []
  | doc :: rest => do
    let phase ← Phase.ofChildren doc.props (Node.numberListFrom n doc.children)
    let more ← numberedFrom (n + (Node.expressionsList doc.children).length) rest
    .ok (phase :: more)

/-- The expressions of some phases in the order of the document. -/
def expressions (docs : List PhaseDocument) : List (ValueType × String) :=
  docs.flatMap fun doc => Node.expressionsList doc.children

variable {state after : BuildState} {n : Nat} {cs : List Callable} {g : Nat → Callable}

theorem gives_compile {doc : PhaseDocument} {numbered : Phase Nat}
    (h : Gives ((Node.expressionsList doc.children).mapM (compileAt compileLeaf)) state cs after)
    (hnumbered : Phase.ofChildren doc.props (Node.numberListFrom n doc.children) = .ok numbered)
    (hg : PlacedFrom n cs g) : Gives doc.compile state (numbered.map g) after := by
  refine gives_bind.2 ⟨_, _, Node.gives_compileList doc.children h hg, gives_ofExcept.2 ⟨?_, rfl⟩⟩
  rw [Phase.ofChildren_map, hnumbered]
  rfl

theorem gives_compileFrom {docs : List PhaseDocument} {index : Nat} {numbered : List (Phase Nat)}
    (h : Gives ((expressions docs).mapM (compileAt compileLeaf)) state cs after)
    (hnumbered : numberedFrom n docs = .ok numbered) (hg : PlacedFrom n cs g) :
    Gives (compileFrom index docs) state (Phase.mapList g numbered) after := by
  induction docs generalizing state n cs index numbered with
  | nil =>
    cases hnumbered
    exact gives_pure.2 ⟨rfl, (gives_mapM_nil.1 h).2⟩
  | cons doc rest ih =>
    obtain ⟨bs, mid, bs', hbs, hbs', rfl⟩ := gives_mapM_append.1 h
    obtain ⟨hfirst, hrest⟩ := placedFrom_append.1 hg
    rw [length_of_gives_mapM hbs] at hrest
    obtain ⟨phase, hphase, hnumbered⟩ := Except.bind_eq_ok_iff.1 hnumbered
    obtain ⟨more, hmore, hnumbered⟩ := Except.bind_eq_ok_iff.1 hnumbered
    cases hnumbered
    exact gives_bind.2 ⟨_, _, gives_adapt.2 (gives_compile hbs hphase hfirst),
      gives_bind.2 ⟨_, _, ih hbs' hmore hrest, gives_pure.2 ⟨rfl, rfl⟩⟩⟩

/-- Some place holds every result, since there are callables. -/
theorem exists_placedFrom (n : Nat) (cs : List Callable) : ∃ g, PlacedFrom n cs g := by
  have hsome : Nonempty Callable := ⟨⟨⟨[], .bool⟩, [], .unit ⟨"", ⟨[], .bool⟩, ⟨[], []⟩⟩⟩⟩
  obtain ⟨other⟩ := hsome
  exact ⟨fun k => (cs[k - n]?).getD other, fun i c hc => by simp [hc]⟩

theorem exists_mapM_of_compile {doc : PhaseDocument} {phase : Phase Callable}
    (h : Gives doc.compile state phase after) (n : Nat) :
    ∃ cs numbered, Gives ((Node.expressionsList doc.children).mapM (compileAt compileLeaf)) state cs after ∧
      Phase.ofChildren doc.props (Node.numberListFrom n doc.children) = .ok numbered := by
  obtain ⟨children, mid, hchildren, hphase⟩ := gives_bind.1 h
  obtain ⟨hphase, rfl⟩ := gives_ofExcept.1 hphase
  obtain ⟨cs, hcs⟩ := Node.exists_mapM_of_compileList doc.children hchildren
  obtain ⟨g, hg⟩ := exists_placedFrom n cs
  -- The blocks of the compiled children are those of the numbered ones.
  have hsame := hchildren.symm.trans (Node.gives_compileList doc.children hcs hg)
  cases hsame
  rw [Phase.ofChildren_map] at hphase
  cases hnumbered : Phase.ofChildren doc.props (Node.numberListFrom n doc.children) with
  | ok numbered => exact ⟨cs, numbered, hcs, rfl⟩
  | error e =>
    rw [hnumbered] at hphase
    cases hphase

theorem exists_mapM_of_compileFrom {docs : List PhaseDocument} {index : Nat} {phases : List (Phase Callable)}
    (h : Gives (compileFrom index docs) state phases after) (n : Nat) :
    ∃ cs numbered, Gives ((expressions docs).mapM (compileAt compileLeaf)) state cs after ∧
      numberedFrom n docs = .ok numbered := by
  induction docs generalizing state index n phases with
  | nil => exact ⟨[], [], gives_mapM_nil.2 ⟨rfl, (gives_pure.1 h).2⟩, rfl⟩
  | cons doc rest ih =>
    obtain ⟨phase, mid, hphase, h⟩ := gives_bind.1 h
    obtain ⟨more, mid', hmore, hpure⟩ := gives_bind.1 h
    obtain ⟨-, rfl⟩ := gives_pure.1 hpure
    obtain ⟨cs, numbered, hcs, hnumbered⟩ := exists_mapM_of_compile (gives_adapt.1 hphase) n
    obtain ⟨cs', numbered', hcs', hnumbered'⟩ := ih hmore (n + (Node.expressionsList doc.children).length)
    refine ⟨cs ++ cs', numbered :: numbered', gives_mapM_append.2 ⟨cs, mid, cs', hcs, hcs', rfl⟩, ?_⟩
    rw [numberedFrom, hnumbered, Except.ok_bind, hnumbered', Except.ok_bind]

end PhaseDocument

namespace PatternDocument

/-- The expressions of a document in their order, with the types they are used at. -/
def expressions (doc : PatternDocument) : List (ValueType × String) := PhaseDocument.expressions doc.phases

/-- The pattern of a document with the places of the expressions in place of them. -/
def numbered (doc : PatternDocument) : Except MachineError (Pattern Nat) := do
  .ok (Pattern.ofPhases doc.props (← PhaseDocument.numberedFrom 0 doc.phases))

variable {doc : PatternDocument} {state after : BuildState}

/-- If the expressions of a document are compiled, so is the document, with the results at their places. -/
theorem gives_compile {cs : List Callable} {numbered : Pattern Nat} {g : Nat → Callable}
    (h : Gives (doc.expressions.mapM (compileAt compileLeaf)) state cs after)
    (hnumbered : doc.numbered = .ok numbered) (hg : PlacedFrom 0 cs g) :
    Gives doc.compile state (numbered.map g) after := by
  obtain ⟨phases, hphases, hnumbered⟩ := Except.bind_eq_ok_iff.1 hnumbered
  cases hnumbered
  exact gives_bind.2 ⟨_, _, PhaseDocument.gives_compileFrom h hphases hg,
    gives_pure.2 ⟨Pattern.ofPhases_map _ _ _, rfl⟩⟩

/-- A document is compiled by compiling its expressions in their order, and the pattern is the one of the
document with the results at their places. -/
theorem exists_of_compile {pattern : Pattern Callable} (h : Gives doc.compile state pattern after) :
    ∃ cs numbered, Gives (doc.expressions.mapM (compileAt compileLeaf)) state cs after ∧
      doc.numbered = .ok numbered ∧ ∀ g, PlacedFrom 0 cs g → pattern = numbered.map g := by
  obtain ⟨phases, mid, hphases, hpure⟩ := gives_bind.1 h
  obtain ⟨-, rfl⟩ := gives_pure.1 hpure
  obtain ⟨cs, places, hcs, hplaces⟩ := PhaseDocument.exists_mapM_of_compileFrom hphases 0
  have hnumbered : doc.numbered = .ok (Pattern.ofPhases doc.props places) := by
    rw [numbered, hplaces, Except.ok_bind]
  refine ⟨cs, _, hcs, hnumbered, fun g hg => ?_⟩
  have hsame := h.symm.trans (gives_compile hcs hnumbered hg)
  cases hsame
  rfl

/-- Compiling a document comes down to compiling its expressions. -/
theorem gives_compile_iff {pattern : Pattern Callable} :
    Gives doc.compile state pattern after ↔
      ∃ cs, Gives (doc.expressions.mapM (compileAt compileLeaf)) state cs after ∧
        ∃ numbered, doc.numbered = .ok numbered ∧ ∀ g, PlacedFrom 0 cs g → pattern = numbered.map g := by
  constructor
  · intro h
    obtain ⟨cs, numbered, hcs, hnumbered, hpattern⟩ := exists_of_compile h
    exact ⟨cs, hcs, numbered, hnumbered, hpattern⟩
  · rintro ⟨cs, hcs, numbered, hnumbered, hpattern⟩
    obtain ⟨g, hg⟩ := exists_placedFrom 0 cs
    rw [hpattern g hg]
    exact gives_compile hcs hnumbered hg

end PatternDocument

end Barrage
