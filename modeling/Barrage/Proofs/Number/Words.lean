import Mathlib.Data.Int.Basic
import Barrage.Number.Checked

/-!
# Whole numbers as text

A word is written in decimal, with a minus sign if it is negative, and read back to itself. Digits among
which some other character stands are not a word.

## Main results

* `Checked.ofText?_toString` — the text of a word is read as the word
* `Checked.ofText?_eq_none` — text with a character that is no digit is not a word
-/

namespace Barrage.Checked

/-- A word is the one that holds its number. -/
theorem word?_toInt (n : Int64) : word? n.toInt = some n := by
  have hlow : Int64.minValue.toInt ≤ n.toInt := Int64.minValue_le_toInt n
  have hhigh : n.toInt ≤ Int64.maxValue.toInt := Int64.toInt_le n
  rw [word?, if_pos ⟨hlow, hhigh⟩, Int64.ofInt_toInt]

theorem toInt_of_word? {k : Int} {n : Int64} (h : word? k = some n) : n.toInt = k := by
  unfold word? at h
  split at h
  · rename_i hk
    cases h
    exact Int64.toInt_ofInt_of_le hk.1 (Int.lt_of_le_of_lt hk.2 (by decide))
  · cases h

/-- The number that decimal digits denote, as an integer. -/
theorem foldl_digits (cs : List Char) (start : Nat) :
    cs.foldl (fun (n : Int) c => 10 * n + ((c.toNat - '0'.toNat : Nat) : Int)) start =
      (Nat.ofDigitChars 10 cs start : Int) := by
  induction cs generalizing start with
  | nil => simp
  | cons c cs ih =>
    have hstep : (10 * (start : Int) + ((c.toNat - '0'.toNat : Nat) : Int)) =
        ((10 * start + (c.toNat - '0'.toNat) : Nat) : Int) := by
      push_cast
      rfl
    rw [List.foldl_cons, hstep, ih]
    simp [Nat.ofDigitChars_cons]

/-- What holds of the ten digits holds of every one. -/
theorem forall_digits (p : Char → Prop) [DecidablePred p]
    (h : ['0', '1', '2', '3', '4', '5', '6', '7', '8', '9'].all (decide <| p ·) = true) {c : Char}
    (hc : c.isDigit = true) : p c := by
  have hall : ∀ k < 10, Char.ofNat (48 + k) ∈ ['0', '1', '2', '3', '4', '5', '6', '7', '8', '9'] := by decide
  simp only [Char.isDigit, Bool.and_eq_true, decide_eq_true_eq, ge_iff_le, UInt32.le_iff_toNat_le] at hc
  have hlow : 48 ≤ c.toNat := hc.1
  have hhigh : c.toNat ≤ 57 := hc.2
  have hoffset : 48 + (c.toNat - 48) = c.toNat := by omega
  have hmem := hall (c.toNat - 48) (by omega)
  rw [hoffset, Char.ofNat_toNat] at hmem
  exact of_decide_eq_true (List.all_eq_true.1 h c hmem)

theorem isDigit_of_mem_toDigits {k : Nat} {c : Char} (hc : c ∈ Nat.toDigits 10 k) : c.isDigit = true :=
  Nat.isDigit_of_mem_toDigits (by decide) (by decide) hc

section

variable {cs : List Char}

/-- Digits are read as the word that holds their number. -/
theorem ofText?_digits (hne : cs ≠ []) (hall : ∀ c ∈ cs, c.isDigit = true) :
    ofText? (String.ofList cs) = word? (Nat.ofDigitChars 10 cs 0) := by
  obtain ⟨c, cs, rfl⟩ := List.exists_cons_of_ne_nil hne
  have hminus : c ≠ '-' := by rintro rfl; exact absurd (hall '-' (by simp)) (by decide)
  have hplus : c ≠ '+' := by rintro rfl; exact absurd (hall '+' (by simp)) (by decide)
  have hfold := foldl_digits (c :: cs) 0
  have htest : (c :: cs).all Char.isDigit = true := List.all_eq_true.2 hall
  unfold ofText?
  rw [String.toList_ofList]
  split
  rename_i negative digits heq
  split at heq
  · rename_i hcs
    cases hcs
    exact absurd rfl hminus
  · rename_i hcs
    cases hcs
    exact absurd rfl hplus
  · cases heq
    simp only [List.isEmpty_cons, htest, Bool.not_true, Bool.or_self, Bool.false_eq_true, if_false]
    exact congrArg word? hfold

/-- Digits after a minus sign are read as the word that holds the opposite of their number. -/
theorem ofText?_minus_digits (hne : cs ≠ []) (hall : ∀ c ∈ cs, c.isDigit = true) :
    ofText? (String.ofList ('-' :: cs)) = word? (-(Nat.ofDigitChars 10 cs 0 : Int)) := by
  have hfold := foldl_digits cs 0
  have htest : cs.all Char.isDigit = true := List.all_eq_true.2 hall
  have hempty : cs.isEmpty = false := by simpa using hne
  unfold ofText?
  simp only [String.toList_ofList, hempty, htest, Bool.not_true, Bool.or_self, Bool.false_eq_true, if_false,
    if_true]
  exact congrArg (fun n : Int => word? (-n)) hfold

/-- Text with a character that is no digit, apart from a sign at its start, is not a word. -/
theorem ofText?_eq_none {first c : Char} (hfirst : first = '-' ∨ first.isDigit = true) (hc : c ∈ cs)
    (hdigit : c.isDigit = false) : ofText? (String.ofList (first :: cs)) = none := by
  have htest : cs.all Char.isDigit = false := by
    rw [List.all_eq_false]
    exact ⟨c, hc, by simp [hdigit]⟩
  unfold ofText?
  rw [String.toList_ofList]
  split
  rename_i negative digits heq
  split at heq
  · rename_i hcs
    cases hcs
    cases heq
    simp [htest]
  · rename_i hcs
    cases hcs
    cases heq
    simp [htest]
  · cases heq
    simp [htest]

/-- Text that opens with a digit is read as a word without a sign. -/
theorem nonneg_of_ofText? {c : Char} {n : Int64} (hc : c.isDigit = true)
    (h : ofText? (String.ofList (c :: cs)) = some n) : 0 ≤ n.toInt := by
  by_cases hall : ∀ d ∈ cs, d.isDigit = true
  · rw [ofText?_digits (List.cons_ne_nil c cs) (List.forall_mem_cons.2 ⟨hc, hall⟩)] at h
    rw [toInt_of_word? h]
    exact Int.natCast_nonneg _
  · obtain ⟨d, hall⟩ := Classical.not_forall.1 hall
    obtain ⟨hd, hdigit⟩ := Classical.not_imp.1 hall
    rw [ofText?_eq_none (.inr hc) hd ((Bool.not_eq_true _).mp hdigit)] at h
    cases h

end

/-- The text of a word is read as the word. -/
theorem ofText?_toString (n : Int64) : ofText? (toString n.toInt) = some n := by
  rw [← word?_toInt n]
  cases hn : n.toInt with
  | ofNat k =>
    have htext : toString (Int.ofNat k) = String.ofList (Nat.toDigits 10 k) := Nat.toString_eq_ofList_toDigits
    rw [htext, ofText?_digits Nat.toDigits_ne_nil fun _ => isDigit_of_mem_toDigits,
      Nat.ofDigitChars_ten_toDigits]
    rfl
  | negSucc k =>
    have htext : toString (Int.negSucc k) = String.ofList ('-' :: Nat.toDigits 10 (k + 1)) := by
      refine String.toList_inj.1 ?_
      change ("-" ++ Nat.repr (k + 1)).toList = _
      simp
    rw [htext, ofText?_minus_digits Nat.toDigits_ne_nil fun _ => isDigit_of_mem_toDigits,
      Nat.ofDigitChars_ten_toDigits]
    rfl

end Barrage.Checked
