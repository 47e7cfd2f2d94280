import Barrage.Expr.Linear
import Barrage.Expr.Parser

/-!
# The names that linearizing makes

Linearizing gives bindings and conditions numbered names: a number after a mark that tells what the name
is for. Read from its end, such a name is a number and then the mark, so kind and number can be read off
it. Hence names of different kinds or numbers differ, and none of them is a name of the source, which
has no two underscores in a row.

## Main definitions

* `letName`, `guardName` — the names of bindings and of conditions
* `NameKind`, `nameKind?` — what a name is for, read off its end

## Main results

* `letName_injective`, `guardName_injective` — a made name determines its number
* `nameKind?_of_source` — no name of the source is a made one
-/

namespace Barrage

/-- The name of a binding with some number. -/
def letName (name : String) (number : Nat) : String := s!"{name}__l{number}"

/-- The name of a condition with some number. -/
def guardName (number : Nat) : String := s!"guard__g{number}"

/-- What a made name is for. -/
inductive NameKind where
  | binding | guard
deriving DecidableEq

/-- What a name is for, if it is a made one. -/
def nameKind? (name : String) : Option NameKind :=
  match name.toList.reverse.dropWhile Char.isDigit with
  | 'l' :: '_' :: '_' :: _ => some .binding
  | 'g' :: '_' :: '_' :: _ => some .guard
  | _ => none

section Ends

variable {cs : List Char} {mark : Char}

theorem isDigit_of_mem_reverse {n : Nat} : ∀ c ∈ (Nat.toDigits 10 n).reverse, c.isDigit = true :=
  fun _ hc => Nat.isDigit_of_mem_toDigits (by decide) (by decide) (List.mem_reverse.1 hc)

/-- What stands before the number at the end of a text. -/
theorem dropWhile_reverse_append_toDigits (hmark : mark.isDigit = false) (n : Nat) :
    (cs ++ mark :: Nat.toDigits 10 n).reverse.dropWhile Char.isDigit = mark :: cs.reverse := by
  rw [List.reverse_append, List.reverse_cons, List.append_assoc,
    List.dropWhile_append_of_pos isDigit_of_mem_reverse]
  simp [hmark]

/-- The number at the end of a text. -/
theorem takeWhile_reverse_append_toDigits (hmark : mark.isDigit = false) (n : Nat) :
    (cs ++ mark :: Nat.toDigits 10 n).reverse.takeWhile Char.isDigit =
      (Nat.toDigits 10 n).reverse := by
  rw [List.reverse_append, List.reverse_cons, List.append_assoc,
    List.takeWhile_append_of_pos isDigit_of_mem_reverse]
  simp [hmark]

end Ends

theorem toList_letName (name : String) (number : Nat) :
    (letName name number).toList = (name.toList ++ ['_', '_']) ++ 'l' :: Nat.toDigits 10 number := by
  simp [letName, toString]

theorem toList_guardName (number : Nat) :
    (guardName number).toList =
      (['g', 'u', 'a', 'r', 'd'] ++ ['_', '_']) ++ 'g' :: Nat.toDigits 10 number := by
  simp [guardName, toString]

@[simp] theorem nameKind?_letName (name : String) (number : Nat) :
    nameKind? (letName name number) = some .binding := by
  rw [nameKind?, toList_letName, dropWhile_reverse_append_toDigits (by decide)]
  simp

@[simp] theorem nameKind?_guardName (number : Nat) : nameKind? (guardName number) = some .guard := by
  rw [nameKind?, toList_guardName, dropWhile_reverse_append_toDigits (by decide)]
  simp

theorem toDigits_injective {m n : Nat} (h : Nat.toDigits 10 m = Nat.toDigits 10 n) : m = n := by
  rw [← Nat.ofDigitChars_ten_toDigits (n := m), h, Nat.ofDigitChars_ten_toDigits]

theorem letName_injective {name name' : String} {m n : Nat} (h : letName name m = letName name' n) :
    m = n := by
  have hlist := congrArg (fun s => s.toList.reverse.takeWhile Char.isDigit) h
  simp only [toList_letName, takeWhile_reverse_append_toDigits (by decide : 'l'.isDigit = false),
    List.reverse_inj] at hlist
  exact toDigits_injective hlist

theorem guardName_injective {m n : Nat} (h : guardName m = guardName n) : m = n := by
  have hlist := congrArg (fun s => s.toList.reverse.takeWhile Char.isDigit) h
  simp only [toList_guardName, takeWhile_reverse_append_toDigits (by decide : 'g'.isDigit = false),
    List.reverse_inj] at hlist
  exact toDigits_injective hlist

theorem letName_ne_guardName {name : String} {m n : Nat} : letName name m ≠ guardName n := by
  intro h
  have := congrArg nameKind? h
  simp at this

/-- A text in which two underscores follow each other somewhere. -/
theorem hasDoubleUnderscore_append (pre post : List Char) :
    Expr.hasDoubleUnderscore (pre ++ '_' :: '_' :: post) = true := by
  induction pre with
  | nil => simp [Expr.hasDoubleUnderscore]
  | cons c pre ih =>
    rw [List.cons_append]
    unfold Expr.hasDoubleUnderscore
    split
    · rfl
    · rename_i heq
      cases heq
      exact ih
    · rename_i heq
      cases heq

/-- Reversed texts with two underscores after their first character have two in a row. -/
theorem hasDoubleUnderscore_of_dropWhile {cs rest : List Char} {p : Char → Bool} {mark : Char}
    (h : cs.reverse.dropWhile p = mark :: '_' :: '_' :: rest) :
    Expr.hasDoubleUnderscore cs = true := by
  have hcs : cs = rest.reverse ++ '_' :: '_' :: (mark :: (cs.reverse.takeWhile p).reverse) := by
    have := List.takeWhile_append_dropWhile (p := p) (l := cs.reverse)
    rw [h] at this
    simpa using (congrArg List.reverse this).symm
  rw [hcs]
  exact hasDoubleUnderscore_append _ _

/-- A name of the source is not a made one. -/
theorem nameKind?_of_source {name : String} (h : Expr.hasDoubleUnderscore name.toList = false) :
    nameKind? name = none := by
  unfold nameKind?
  split
  · rename_i heq
    rw [hasDoubleUnderscore_of_dropWhile heq] at h
    cases h
  · rename_i heq
    rw [hasDoubleUnderscore_of_dropWhile heq] at h
    cases h
  · rfl

end Barrage
