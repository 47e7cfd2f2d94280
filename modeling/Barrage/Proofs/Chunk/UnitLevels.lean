import Barrage.Proofs.Chunk.UnitLines
import Barrage.Proofs.Expr.Sizes

/-!
# Levels of printed units

What is printed for a node opens at most seven levels for each three nodes: a choice opens seven, and with the
choice go a condition and another branch; a call opens two. So no line of a unit opens many more levels than
that for the nodes of the expression, and an expression with few nodes is printed as lines that can be read.

Names of source that open with underscores and a digit are the only ones that the serving language refuses.

## Main definitions

* `opensDigit` — names that open with underscores and a digit

## Main results

* `Expr.levels_phrase_le`, `Expr.levels_unitLines_le` — levels by the number of nodes
* `Expr.levels_of_nodes_le` — the lines of an expression with few nodes
* `Expr.Unambiguous.readable_unitLines_iff` — which units can be read
-/

namespace Barrage

open Chunk

/-! ### Phrases -/

theorem levels_floatPhrase_le (x : Float) : (floatPhrase x).levels ≤ 2 := by
  unfold floatPhrase
  split
  · exact Nat.zero_le _
  · split
    · exact Nat.le_refl _
    · exact Nat.zero_le _
  · rw [Phrase.levels]
    split
    · exact Nat.le_refl _
    · exact Nat.zero_le _

theorem Value.levels_phrase_le (v : Value) : v.phrase.levels ≤ 4 := by
  cases v with
  | float x => exact (levels_floatPhrase_le x).trans (by decide)
  | int n =>
    change (intPhrase n).levels ≤ 4
    unfold intPhrase
    split
    · exact (by decide : 3 ≤ 4)
    · rw [Phrase.levels]
      split <;> decide
  | bool b => exact Nat.zero_le _
  | vec2 v =>
    have hx := levels_floatPhrase_le v.x
    have hy := levels_floatPhrase_le v.y
    rw [phrase, Phrase.levels, Phrase.mostLevels, Phrase.mostLevels]
    omega
  | timer | entity => exact (by decide : 1 ≤ 4)

namespace Expr

section Lists

variable {es : List Expr} (h : ∀ e ∈ es, 3 * e.phrase.levels ≤ 7 * e.nodes + 5)

include h

theorem chainLevels_phrases_le : 3 * Phrase.chainLevels (phrases es) ≤ 7 * nodesList es + 5 := by
  induction es with
  | nil => exact Nat.zero_le _
  | cons e es ih =>
    obtain ⟨he, hes⟩ := List.forall_mem_cons.1 h
    have hrest := ih hes
    have hpos := e.nodes_pos
    rw [phrases, Phrase.chainLevels, nodesList]
    omega

theorem mostLevels_phrases_le : 3 * Phrase.mostLevels (phrases es) ≤ 7 * nodesList es + 5 := by
  induction es with
  | nil => exact Nat.zero_le _
  | cons e es ih =>
    obtain ⟨he, hes⟩ := List.forall_mem_cons.1 h
    have hrest := ih hes
    rw [phrases, Phrase.mostLevels, nodesList]
    omega

/-- Nested calls of two arguments each. -/
theorem levels_foldl_call_le (function : String) {first : Phrase} {n : Nat} (hn : 0 < n)
    (hfirst : 3 * first.levels ≤ 7 * n + 5) :
    3 * ((phrases es).foldl (fun acc p => .call function [acc, p]) first).levels ≤ 7 * (n + nodesList es) + 5 := by
  induction es generalizing first n with
  | nil => exact hfirst
  | cons e es ih =>
    obtain ⟨he, hes⟩ := List.forall_mem_cons.1 h
    have hpos := e.nodes_pos
    have hcall : 3 * (Phrase.call function [first, e.phrase]).levels ≤ 7 * (n + e.nodes) + 5 := by
      rw [Phrase.levels, Phrase.mostLevels, Phrase.mostLevels]
      omega
    have hrest := ih hes (Nat.add_pos_left hn _) hcall
    rw [phrases, List.foldl_cons, nodesList, ← Nat.add_assoc]
    exact hrest

theorem levels_call_le (function : String) :
    3 * (Phrase.call function (phrases es)).levels ≤ 7 * (nodesList es + 1) + 5 := by
  cases es with
  | nil => exact Nat.zero_le _
  | cons e es =>
    obtain ⟨he, hes⟩ := List.forall_mem_cons.1 h
    have hrest := mostLevels_phrases_le hes
    rw [phrases, Phrase.levels, nodesList]
    omega

theorem levels_func_phrase_le (func : Func) :
    3 * (func.phrase (phrases es)).levels ≤ 7 * (nodesList es + 1) + 5 := by
  cases es with
  | nil => cases func <;> exact Nat.zero_le _
  | cons e es =>
    obtain ⟨he, hes⟩ := List.forall_mem_cons.1 h
    have hchain := chainLevels_phrases_le hes
    have hfold := levels_foldl_call_le hes func.name e.nodes_pos he
    have hjoined (op : Operator) :
        3 * (Phrase.chain op e.phrase (phrases es)).levels ≤ 7 * (nodesList (e :: es) + 1) + 5 := by
      rw [Phrase.levels, nodesList]
      omega
    cases func
    case add | mul | and | or => exact hjoined _
    case min | max => exact hfold.trans (by rw [nodesList]; omega)
    all_goals exact levels_call_le h _

end Lists

/-- What is printed for an expression opens at most seven levels for each three nodes. -/
theorem levels_phrase_le (e : Expr) : 3 * e.phrase.levels ≤ 7 * e.nodes + 5 := by
  induction e using treeInduction with
  | const value =>
    have hvalue := value.levels_phrase_le
    rw [phrase, nodes]
    omega
  | var name => exact Nat.zero_le _
  | member inner field ih | unary op inner ih =>
    rw [phrase, Phrase.levels, Phrase.mostLevels, nodes]
    omega
  | binary op left right ihl ihr =>
    have hpos := left.nodes_pos
    have hpos' := right.nodes_pos
    rw [phrase, Phrase.levels, Phrase.chainLevels, Phrase.chainLevels, nodes]
    omega
  | call func args ih => exact levels_func_phrase_le ih func
  | branch cond yes no ihc ihy ihn =>
    have hpos := cond.nodes_pos
    have hpos' := yes.nodes_pos
    have hpos'' := no.nodes_pos
    rw [phrase, Phrase.levels, nodes]
    omega
  | bind name value body _ _ => exact (by omega : 3 * 1 ≤ 7 * nodes (.bind name value body) + 5)

/-- Conditions of at most two nodes each. -/
theorem levels_conjunction_le {gs : List Expr} (hgs : ∀ g ∈ gs, g.nodes ≤ 2) {cond : Expr}
    (hcond : conjunction gs = some cond) : cond.phrase.levels ≤ gs.length + 8 := by
  have hone : ∀ g ∈ gs, g.phrase.levels ≤ 6 := fun g hg => by
    have hlevels := g.levels_phrase_le
    have hnodes := hgs g hg
    omega
  -- All but the first condition stand in a chain, so each of them costs one level.
  have hchain : ∀ gs : List Expr, (∀ g ∈ gs, g.phrase.levels ≤ 6) →
      Phrase.chainLevels (phrases gs) ≤ gs.length + 6 := by
    intro gs
    induction gs with
    | nil => exact fun _ => Nat.zero_le _
    | cons g gs ih =>
      intro h
      obtain ⟨hg, hgs⟩ := List.forall_mem_cons.1 h
      have hrest := ih hgs
      rw [phrases, Phrase.chainLevels, List.length_cons]
      omega
  match gs with
  | [] => cases hcond
  | [g] =>
    cases hcond
    exact (hone cond (by simp)).trans (by simp)
  | g :: g' :: more =>
    cases hcond
    obtain ⟨hg, hmore⟩ := List.forall_mem_cons.1 hone
    have hrest := hchain _ hmore
    change 2 + max g.phrase.levels (Phrase.chainLevels (phrases (g' :: more))) ≤ _
    rw [List.length_cons]
    omega

end Expr

/-! ### Lines -/

theorem Binding.Small.levels_line_le {b : Binding} {n : Nat} (h : b.Small 0 n) :
    3 * b.line.levels ≤ 7 * n + 42 := by
  obtain ⟨gs, hguard, hlength, hgs⟩ := h.guard
  have hvalue := b.value.levels_phrase_le
  have hnodes := h.value
  unfold Binding.line
  split
  · rw [Line.levels]
    omega
  · rename_i cond hcond
    have hlevels := Expr.levels_conjunction_le hgs (hguard.symm.trans hcond)
    rw [Line.levels]
    omega

namespace Expr

/-- No line of a unit opens many more levels than seven for each three nodes of the expression. -/
theorem levels_unitLines_le (e : Expr) : ∀ l ∈ e.unitLines, 3 * l.levels ≤ 7 * e.nodes + 42 := by
  have hsize : (rename [] (withNames e.lookups e.flatten) 0).1.nodes ≤ e.nodes := by
    rw [nodes_rename, nodes_withNames]
    exact nodes_flatten_le e
  obtain ⟨hresult, hsmall⟩ := small_lift (rename [] (withNames e.lookups e.flatten) 0).1 [] 0
    (List.forall_mem_nil _)
  rw [unitLines, linear_eq]
  refine List.forall_mem_append.2 ⟨List.forall_mem_append.2 ⟨?_, ?_⟩, ?_⟩
  · refine List.forall_mem_map.2 fun known _ => ?_
    exact (by decide : 3 * 5 ≤ 42).trans (Nat.le_add_left _ _)
  · refine List.forall_mem_map.2 fun b hb => ?_
    exact ((hsmall b hb).mono hsize (Nat.add_le_add_left hsize _)).levels_line_le
  · refine List.forall_mem_singleton.2 ?_
    have hlevels := levels_phrase_le (lift [] (rename [] (withNames e.lookups e.flatten) 0).1 0).1
    change 3 * (2 + (lift [] (rename [] (withNames e.lookups e.flatten) 0).1 0).1.phrase.levels) ≤ _
    omega

/-- The lines of an expression with few nodes open no more levels than a function leaves them. -/
theorem levels_of_nodes_le {e : Expr} (h : e.nodes ≤ 200) : ∀ l ∈ e.unitLines, l.levels ≤ maxLevels - 2 := by
  intro l hl
  have hlevels := levels_unitLines_le e l hl
  have hmax : maxLevels = 512 := rfl
  omega

end Expr

/-! ### Names -/

/-- Whether a name opens with underscores and a digit. -/
def opensDigit (x : String) : Bool := ((x.toList.dropWhile (· = '_')).head?.map Char.isDigit).getD false

/-- What opens with a digit behind its underscores is no word of the serving language. -/
theorem isWord_letName {x : String} (hx : Identifier x) (n : Nat) :
    ChunkToken.isWord (letName x n).toList = !opensDigit x := by
  unfold ChunkToken.isWord opensDigit
  rw [toList_letName, List.append_assoc, List.dropWhile_append]
  cases hdrop : x.toList.dropWhile (· = '_') with
  | nil => rfl
  | cons c cs =>
    have hc : c ∈ x.toList := (List.dropWhile_sublist _).subset (by rw [hdrop]; exact List.mem_cons_self ..)
    have hbar : c ≠ '_' := by
      have hhead := List.head?_dropWhile_not (· = '_') x.toList
      rw [hdrop] at hhead
      simpa using hhead
    have hcontinues := hx.continues c hc
    have halphanum : (c.isAlpha || c.isDigit) = true := by
      simpa [Scanned.continuesName, hbar, Char.isAlphanum] using hcontinues
    -- Behind the underscores a name goes on with a letter or a digit, and the made end does not matter.
    cases hdigit : c.isDigit with
    | true =>
      have halpha : c.isAlpha = false := Checked.forall_digits (Char.isAlpha · = false) (by decide) hdigit
      simp [hdigit, halpha]
    | false =>
      rw [hdigit, Bool.or_false] at halphanum
      simp [hdigit, halphanum]

theorem isFunctionName_letName_iff {x : String} (hx : SourceName x) (n : Nat) :
    isFunctionName (letName x n) = true ↔ opensDigit x = false := by
  obtain ⟨hidentifier, hfree⟩ := madeName_letName n hx.toIdentifier
  rw [RecordedUnit.isFunctionName_of_identifier hidentifier, isWord_letName hx.toIdentifier, hfree]
  simp

namespace Expr

/-- Of the names that source can bind, those that open with underscores and a digit keep a unit from being
read, and no others do. -/
theorem Unambiguous.readable_unitLines_iff {e : Expr} {scope : Scope} {ty : ValueType} (h : e.Unambiguous scope ty)
    (hscope : ∀ b ∈ scope, isFunctionName b.1 = true) (hbound : ∀ x ∈ e.boundNames, SourceName x) :
    (∀ l ∈ e.unitLines, l.Readable) ↔ ∀ x ∈ e.boundNames, opensDigit x = false := by
  constructor
  -- A bound name keeps its place through all passes, and heads the line of some binding in the end.
  · intro hread x hx
    rw [← boundNames_flatten, ← boundNames_withNames e.lookups] at hx
    obtain ⟨y, hy, n, rfl⟩ := (forall₂_boundNames_rename [] _ 0).exists_of_mem_left hx
    obtain ⟨b, hb, hname⟩ := names_lift _ _ hy [] 0
    have hline : b.line ∈ e.unitLines := by
      rw [unitLines, linear_eq]
      exact List.mem_append_left _ (List.mem_append_right _ (List.mem_map_of_mem hb))
    have hfunction : isFunctionName b.name = true := by
      have hb := hread _ hline
      unfold Binding.line at hb
      split at hb
      · cases hb
        assumption
      · cases hb
        assumption
    rw [hname] at hfunction
    rw [boundNames_withNames, boundNames_flatten] at hx
    exact (isFunctionName_letName_iff (hbound x hx) n).1 hfunction
  · intro hnames
    exact h.readable_unitLines hscope fun x hx n => (isFunctionName_letName_iff (hbound x hx) n).2 (hnames x hx)

end Expr

end Barrage
