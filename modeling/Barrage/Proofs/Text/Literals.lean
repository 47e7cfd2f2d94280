import Barrage.Chunk.Token

/-!
# Keys in chunks

A key of a lookup is written into a chunk as a literal, with an escape for every character that could end
the literal or the line. Reading the literal gives the key back, whatever characters it is made of, and
goes on behind the closing quote.

## Main results

* `Text.fourHex?_fourHex` — the four digits of a small code point are read as it
* `ChunkToken.content?_literal` — the literal of a key is read as the key
* `Text.newline_notMem_literal` — no literal runs over the end of a line
-/

namespace Barrage

namespace Text

/-- A small code point is written with two zeros before its two digits. -/
theorem fourHex_eq {n : Nat} (h : n < 256) :
    fourHex n = ['0', '0', Nat.digitChar (n / 16), Nat.digitChar (n % 16)] := by
  have hall : ∀ m < 256, fourHex m = ['0', '0', Nat.digitChar (m / 16), Nat.digitChar (m % 16)] := by
    decide +kernel
  exact hall n h

theorem hexDigit?_digitChar {k : Nat} (h : k < 16) : hexDigit? (Nat.digitChar k) = some k := by
  have hall : ∀ m < 16, hexDigit? (Nat.digitChar m) = some m := by decide
  exact hall k h

/-- The digits of a small code point are read as it. -/
theorem fourHex?_fourHex {n : Nat} (h : n < 256) (rest : List Char) :
    fourHex? (fourHex n ++ rest) = some (n, rest) := by
  have hzero : hexDigit? '0' = some 0 := rfl
  rw [fourHex_eq h]
  simp only [List.cons_append, List.nil_append, fourHex?, hzero, hexDigit?_digitChar (by omega : n / 16 < 16),
    hexDigit?_digitChar (by omega : n % 16 < 16), Option.bind_eq_bind, Option.bind_some, Option.some.injEq,
    Prod.mk.injEq, and_true]
  omega

/-- The escape of a control character stands for it. -/
theorem unescape?_control {c : Char} (h : isControl c = true) (rest : List Char) :
    unescape? ('u' :: fourHex c.toNat ++ rest) = some (c, rest) := by
  have hsmall : c.toNat < 256 := by
    simp [isControl] at h
    omega
  have hvalid : c.toNat.isValidChar := c.valid
  simp only [List.cons_append, unescape?, fourHex?_fourHex hsmall, Option.bind_some, codePoint?, if_pos hvalid,
    Char.ofNat_toNat]

end Text

namespace ChunkToken

open Text

/-- An escape stands for its character, unless a line break follows the backslash. -/
theorem content?_escape {whole opening escape rest : List Char} {c : Char} (hfeed : escape.head? ≠ some '\n')
    (hreturn : escape.head? ≠ some '\r') (h : unescape? escape = some (c, rest)) :
    content? whole opening ('\\' :: escape) =
      (content? whole opening rest).map fun r => (c :: r.1, r.2) := by
  rw [content?]
  · split
    · rename_i hnone
      rw [h] at hnone
      cases hnone
    · rename_i hsome
      rw [h] at hsome
      cases hsome
      rfl
  · rintro line rfl
    exact hfeed rfl
  · rintro line rfl
    exact hreturn rfl

/-- The content of a literal goes on with the character that its next part stands for. -/
theorem content?_literalChar (whole opening : List Char) (c : Char) (rest : List Char) :
    content? whole opening (literalChar c ++ rest) =
      (content? whole opening rest).map fun r => (c :: r.1, r.2) := by
  unfold literalChar
  split
  case h_6 hquote hslash hfeed htab hreturn =>
    split
    · rename_i hcontrol
      rw [List.cons_append, content?_escape (by simp) (by simp) (unescape?_control hcontrol rest)]
    · rw [List.cons_append, List.nil_append, content?]
      · exact fun _ hc _ => hquote hc
      · exact hquote
      · exact hfeed
      · exact fun _ hc _ => hslash hc
      · exact fun _ hc _ => hslash hc
      · exact hslash
  all_goals
    rw [List.cons_append, content?_escape (by simp) (by simp) rfl]
    rfl

/-- The literal of a key is read as the key. -/
theorem content?_literal (whole opening : List Char) (key : List Char) {next : Char} (hnext : next ≠ '"')
    (rest : List Char) :
    content? whole opening (key.flatMap literalChar ++ '"' :: next :: rest) = some (key, next :: rest) := by
  induction key with
  | nil =>
    rw [List.flatMap_nil, List.nil_append, content?]
    intro tail heq
    cases heq
    exact hnext rfl
  | cons c key ih =>
    rw [List.flatMap_cons, List.append_assoc, content?_literalChar, ih]
    rfl

end ChunkToken

namespace Text

theorem newline_notMem_fourHex {n : Nat} (h : n < 256) : '\n' ∉ fourHex n := by
  have hall : ∀ m < 256, '\n' ∉ fourHex m := by decide +kernel
  exact hall n h

theorem newline_notMem_literalChar (c : Char) : '\n' ∉ literalChar c := by
  unfold literalChar
  split
  case h_6 hfeed _ _ =>
    split
    · rename_i hcontrol
      have hsmall : c.toNat < 256 := by
        simp [isControl] at hcontrol
        omega
      have hdigits := newline_notMem_fourHex hsmall
      simpa using hdigits
    · rw [List.mem_singleton]
      exact fun heq => hfeed heq.symm
  all_goals decide

theorem toList_literal (key : String) :
    (literal key).toList = '"' :: (key.toList.flatMap literalChar ++ ['"']) := by
  simp [literal]

/-- No literal runs over the end of its line. -/
theorem newline_notMem_literal (key : String) : '\n' ∉ (literal key).toList := by
  rw [toList_literal, List.mem_cons, List.mem_append, List.mem_flatMap]
  rintro (heq | ⟨c, -, hc⟩ | heq)
  · exact absurd heq (by decide)
  · exact newline_notMem_literalChar c hc
  · exact absurd heq (by decide)

end Text

end Barrage
