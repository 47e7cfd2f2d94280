import Barrage.Text.Visible
import Barrage.Text.Class

/-!
# Quoted text

Text is quoted in two ways. Messages show text so that a reader can tell every character apart, and
chunks hold lookup keys as literals of the serving language. Both escape the quote and the backslash,
so that a literal ends where it was meant to end.

## Main definitions

* `Text.shown`: text as messages quote it
* `Text.literal`: text as a chunk quotes it
* `Text.unescape?`: what one escape of a chunk literal stands for
-/

namespace Barrage.Text

/-- A whole number in base sixteen. -/
def hexText (n : Nat) : String := String.ofList (Nat.toDigits 16 n)

/-- One character of a message: quotes, backslashes and common controls by name, other characters
without a form of their own by code point. -/
def shownChar (c : Char) : String :=
  match c with
  | '"' => "\\\""
  | '\\' => "\\\\"
  | '\n' => "\\n"
  | '\r' => "\\r"
  | '\t' => "\\t"
  | '\x00' => "\\0"
  | c => if isVisible c then c.toString else "\\u\x7b" ++ hexText c.toNat ++ "\x7d"

/-- Text between quotes, as messages show it. -/
def shown (s : String) : String :=
  "\"" ++ String.join (s.toList.map shownChar) ++ "\""

/-- The four hexadecimal digits of a small code point. -/
def fourHex (n : Nat) : List Char :=
  let digits := Nat.toDigits 16 n
  List.replicate (4 - digits.length) '0' ++ digits

/-- One character of a chunk literal: controls by an escape, all else as it is. -/
def literalChar (c : Char) : List Char :=
  match c with
  | '"' => ['\\', '"']
  | '\\' => ['\\', '\\']
  | '\n' => ['\\', 'n']
  | '\t' => ['\\', 't']
  | '\r' => ['\\', 'r']
  | c => if isControl c then '\\' :: 'u' :: fourHex c.toNat else [c]

/-- Text between quotes, as a chunk holds it. -/
def literal (s : String) : String :=
  "\"" ++ String.ofList (s.toList.flatMap literalChar) ++ "\""

/-- Value of a hexadecimal digit. -/
def hexDigit? (c : Char) : Option Nat :=
  if c.isDigit then some (c.toNat - '0'.toNat)
  else if 'a' ≤ c ∧ c ≤ 'f' then some (c.toNat - 'a'.toNat + 10)
  else if 'A' ≤ c ∧ c ≤ 'F' then some (c.toNat - 'A'.toNat + 10)
  else none

/-- Value of four hexadecimal digits at the start of a text, and the rest of it. -/
def fourHex? : List Char → Option (Nat × List Char)
  | a :: b :: c :: d :: rest => do
    let a ← hexDigit? a
    let b ← hexDigit? b
    let c ← hexDigit? c
    let d ← hexDigit? d
    some (((a * 16 + b) * 16 + c) * 16 + d, rest)
  | _ => none

/-- Value of two hexadecimal digits at the start of a text, and the rest of it. -/
def twoHex? : List Char → Option (Nat × List Char)
  | a :: b :: rest => do
    let a ← hexDigit? a
    let b ← hexDigit? b
    some (a * 16 + b, rest)
  | _ => none

/-- Value of eight hexadecimal digits at the start of a text, and the rest of it. -/
def eightHex? (cs : List Char) : Option (Nat × List Char) := do
  let (high, cs) ← fourHex? cs
  let (low, cs) ← fourHex? cs
  some (high * 65536 + low, cs)

/-- The character with a code point that was read from an escape. -/
def codePoint? : Nat × List Char → Option (Char × List Char)
  | (n, rest) => if n.isValidChar then some (Char.ofNat n, rest) else none

/-- The character an escape of a chunk literal stands for, read after the backslash, and the rest. -/
def unescape? : List Char → Option (Char × List Char)
  | '"' :: rest => some ('"', rest)
  | '\\' :: rest => some ('\\', rest)
  | 'n' :: rest => some ('\n', rest)
  | 't' :: rest => some ('\t', rest)
  | 'r' :: rest => some ('\r', rest)
  | 'u' :: rest => (fourHex? rest).bind codePoint?
  | 'x' :: rest => (twoHex? rest).bind codePoint?
  | 'U' :: rest => (eightHex? rest).bind codePoint?
  | _ => none

theorem length_fourHex? {cs rest : List Char} {n : Nat} (h : fourHex? cs = some (n, rest)) :
    rest.length < cs.length := by
  unfold fourHex? at h
  split at h
  · simp only [Option.bind_eq_bind, Option.bind_eq_some_iff, Option.some.injEq, Prod.mk.injEq] at h
    obtain ⟨_, _, _, _, _, _, _, _, _, rfl⟩ := h
    simp only [List.length_cons]; omega
  · simp at h

theorem length_twoHex? {cs rest : List Char} {n : Nat} (h : twoHex? cs = some (n, rest)) :
    rest.length < cs.length := by
  unfold twoHex? at h
  split at h
  · simp only [Option.bind_eq_bind, Option.bind_eq_some_iff, Option.some.injEq, Prod.mk.injEq] at h
    obtain ⟨_, _, _, _, _, rfl⟩ := h
    simp only [List.length_cons]; omega
  · simp at h

theorem length_eightHex? {cs rest : List Char} {n : Nat} (h : eightHex? cs = some (n, rest)) :
    rest.length < cs.length := by
  unfold eightHex? at h
  simp only [Option.bind_eq_bind, Option.bind_eq_some_iff, Option.some.injEq, Prod.mk.injEq] at h
  obtain ⟨⟨_, _⟩, hhigh, ⟨_, _⟩, hlow, _, rfl⟩ := h
  exact Nat.lt_trans (length_fourHex? hlow) (length_fourHex? hhigh)

theorem length_codePoint? {p : Nat × List Char} {c : Char} {rest : List Char}
    (h : codePoint? p = some (c, rest)) : rest = p.2 := by
  unfold codePoint? at h
  split at h
  simp at h
  exact h.2.2.symm

/-- An escape takes at least one character. -/
theorem length_unescape? {cs rest : List Char} {c : Char} (h : unescape? cs = some (c, rest)) :
    rest.length < cs.length := by
  unfold unescape? at h
  split at h
  case h_6 =>
    obtain ⟨p, hp, hc⟩ := Option.bind_eq_some_iff.1 h
    rw [length_codePoint? hc]
    have : p.2.length < _ := length_fourHex? hp
    simp; omega
  case h_7 =>
    obtain ⟨p, hp, hc⟩ := Option.bind_eq_some_iff.1 h
    rw [length_codePoint? hc]
    have : p.2.length < _ := length_twoHex? hp
    simp; omega
  case h_8 =>
    obtain ⟨p, hp, hc⟩ := Option.bind_eq_some_iff.1 h
    rw [length_codePoint? hc]
    have : p.2.length < _ := length_eightHex? hp
    simp; omega
  all_goals simp at h
  all_goals (obtain ⟨_, rfl⟩ := h; simp)

end Barrage.Text
