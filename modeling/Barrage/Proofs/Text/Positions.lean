import Mathlib.Data.String.Basic
import Barrage.Expr.Token

/-!
# Positions in a text

A position counts bytes, and what stands there is a byte, also in the middle of a character. A scan that goes
by bytes can therefore read behind the end of a text, or cut it within a character. Here reading and cutting
are checked, and a scan that fails a check is stuck. What keeps a scan from it is that it always knows the
characters which its position leaves: behind each of them there is another such position, and the first byte of
one that is not ASCII is none of the bytes that the scan asks for.

## Main definitions

* `Halt`, `Guarded` — checked runs
* `Text.charAt`, `Text.charAt?`, `Text.slice` — a byte of a text, and a part of it
* `Text.Leaves` — the characters that a position leaves

## Main results

* `Text.Leaves.charAt_eq`, `Text.Leaves.slice_eq` — reading and cutting at such positions
* `Text.apply_lead` — a class of ASCII characters does not tell a character from its first byte
-/

namespace Barrage

/-- Why a checked run ends without a result: it is stuck, or what it reads is refused. -/
inductive Halt where
  | stuck
  | refused (e : ParseError)

/-- Checked runs. -/
abbrev Guarded := Except Halt

/-! ### Lengths -/

@[simp] theorem byteLength_nil : byteLength [] = 0 := rfl

@[simp] theorem byteLength_cons (c : Char) (cs : List Char) :
    byteLength (c :: cs) = c.utf8Size + byteLength cs := by
  have hfold : ∀ (ds : List Char) (n : Nat), ds.foldl (fun n c => n + c.utf8Size) n = n + byteLength ds := by
    intro ds
    induction ds with
    | nil => exact fun n => rfl
    | cons d ds ih =>
      intro n
      rw [byteLength, List.foldl_cons, List.foldl_cons, ih, ih]
      omega
  rw [byteLength, List.foldl_cons, hfold]
  omega

theorem byteLength_eq (cs : List Char) : byteLength cs = String.utf8Len cs := by
  induction cs with
  | nil => rfl
  | cons c cs ih => rw [byteLength_cons, String.utf8Len_cons, ih, Nat.add_comm]

@[simp] theorem byteLength_append (cs ds : List Char) : byteLength (cs ++ ds) = byteLength cs + byteLength ds := by
  rw [byteLength_eq, byteLength_eq, byteLength_eq, String.utf8Len_append]

theorem byteLength_pos {cs : List Char} (h : cs ≠ []) : 0 < byteLength cs := by
  obtain ⟨c, cs, rfl⟩ := List.exists_cons_of_ne_nil h
  rw [byteLength_cons]
  exact Nat.add_pos_left c.utf8Size_pos _

theorem byteLength_eq_length (cs : List Char) : byteLength cs = (cs.flatMap String.utf8EncodeChar).length := by
  induction cs with
  | nil => rfl
  | cons c cs ih => rw [byteLength_cons, List.flatMap_cons, List.length_append, ih, String.length_utf8EncodeChar]

namespace Text

theorem bytes_eq (src : String) : src.toByteArray.data = (src.toList.flatMap String.utf8EncodeChar).toArray := by
  conv_lhs => rw [← String.ofList_toList (s := src), String.toByteArray_ofList]
  rw [List.utf8Encode, List.data_toByteArray]

theorem utf8ByteSize_eq (src : String) : src.utf8ByteSize = byteLength src.toList := by
  rw [byteLength_eq, String.utf8Len_toList]

/-! ### First bytes -/

/-- The first byte of a character, as a character of its own. -/
def lead (c : Char) : Char := Char.ofNat (firstByte c)

theorem toNat_lt (c : Char) : c.toNat < 0x110000 := by
  obtain h | ⟨-, h⟩ : c.toNat.isValidChar := c.valid
  · omega
  · exact h

theorem firstByte_lt (c : Char) : firstByte c < 0x100 := by
  have hc := toNat_lt c
  unfold firstByte
  dsimp only
  split
  · omega
  split
  · omega
  split <;> omega

theorem toNat_lead (c : Char) : (lead c).toNat = firstByte c := by
  have h := firstByte_lt c
  rw [lead, Char.ofNat, dif_pos (.inl (by omega))]
  rfl

theorem lead_of_ascii {c : Char} (h : c.toNat < 0x80) : lead c = c := by
  rw [lead, firstByte, if_pos h, Char.ofNat_toNat]

theorem le_toNat_lead {c : Char} (h : 0x80 ≤ c.toNat) : 0x80 ≤ (lead c).toNat := by
  rw [toNat_lead, firstByte, if_neg (by omega)]
  split
  · omega
  split <;> omega

/-- A class of ASCII characters does not tell a character from its first byte. -/
theorem apply_lead {p : Char → Bool} (hp : ∀ c, p c = true → c.toNat < 0x80) (c : Char) : p (lead c) = p c := by
  rcases Nat.lt_or_ge c.toNat 0x80 with h | h
  · rw [lead_of_ascii h]
  · have hlead := le_toNat_lead h
    rw [Bool.eq_false_of_not_eq_true fun hpc => absurd (hp c hpc) (by omega),
      Bool.eq_false_of_not_eq_true fun hpc => absurd (hp (lead c) hpc) (by omega)]

theorem lead_eq_iff {c d : Char} (hd : d.toNat < 0x80) : lead c = d ↔ c = d := by
  have h := apply_lead (p := fun x => x == d) (fun x hx => by rw [eq_of_beq hx]; exact hd) c
  simpa only [beq_iff_eq, eq_iff_iff] using congrArg (· = true) h

theorem utf8Size_of_ascii {c : Char} (h : c.toNat < 0x80) : c.utf8Size = 1 := by
  rw [Char.utf8Size_eq_one_iff]
  exact UInt32.le_iff_toNat_le.2 (Nat.le_of_lt_succ h)

/-- The encoding of a character opens with its first byte. -/
theorem head?_utf8EncodeChar (c : Char) :
    (String.utf8EncodeChar c).head? = some (UInt8.ofNat (firstByte c)) := by
  have hc := toNat_lt c
  rw [String.utf8EncodeChar.eq_1, Char.toNat_val, firstByte]
  by_cases h₁ : c.toNat < 0x80
  · rw [if_pos h₁, if_pos (by omega)]
    rfl
  by_cases h₂ : c.toNat < 0x800
  · rw [if_neg h₁, if_pos h₂, if_neg (by omega), if_pos (by omega), Nat.mod_eq_of_lt (by omega), Nat.add_comm]
    rfl
  rw [if_neg h₁, if_neg h₂, if_neg (by omega), if_neg (by omega)]
  by_cases h₃ : c.toNat < 0x10000
  · rw [if_pos h₃, if_pos (by omega), Nat.mod_eq_of_lt (by omega), Nat.add_comm]
    rfl
  · rw [if_neg h₃, if_neg (by omega), Nat.mod_eq_of_lt (by omega), Nat.add_comm]
    rfl

/-! ### Checked reading -/

/-- The byte at a position, as a character, if the position is within the text. -/
def charAt? (src : String) (pos : Nat) : Option Char :=
  src.toByteArray.data[pos]?.map fun b => Char.ofNat b.toNat

/-- The byte at a position that has to be within the text. -/
def charAt (src : String) (pos : Nat) : Guarded Char :=
  match charAt? src pos with
  | some c => .ok c
  | none => .error .stuck

/-- The part of a text between two positions, which have to be in order and on boundaries of characters. -/
def slice (src : String) (start stop : Nat) : Guarded String :=
  if start ≤ stop ∧ String.Pos.Raw.IsValid src ⟨start⟩ ∧ String.Pos.Raw.IsValid src ⟨stop⟩ then
    .ok (String.Pos.Raw.extract src ⟨start⟩ ⟨stop⟩)
  else .error .stuck

/-- A position leaves characters of a text: it is as long as those before them. -/
def Leaves (src : String) (pos : Nat) (cs : List Char) : Prop :=
  ∃ front, src.toList = front ++ cs ∧ byteLength front = pos

theorem leaves_zero (src : String) : Leaves src 0 src.toList := ⟨[], rfl, rfl⟩

namespace Leaves

variable {src : String} {pos : Nat} {c : Char} {cs taken : List Char}

theorem skip (h : Leaves src pos (taken ++ cs)) : Leaves src (pos + byteLength taken) cs := by
  obtain ⟨front, hsrc, hpos⟩ := h
  exact ⟨front ++ taken, by rw [hsrc, List.append_assoc], by rw [byteLength_append, hpos]⟩

theorem tail (h : Leaves src pos (c :: cs)) : Leaves src (pos + c.utf8Size) cs := by
  have hskip : Leaves src (pos + byteLength [c]) cs := h.skip
  rwa [byteLength_cons, byteLength_nil, Nat.add_zero] at hskip

/-- Behind an ASCII character the next position is the next byte. -/
theorem succ (h : Leaves src pos (c :: cs)) (hc : c.toNat < 0x80) : Leaves src (pos + 1) cs := by
  rw [← utf8Size_of_ascii hc]
  exact h.tail

theorem add_byteLength (h : Leaves src pos cs) : pos + byteLength cs = src.utf8ByteSize := by
  obtain ⟨front, hsrc, hpos⟩ := h
  rw [utf8ByteSize_eq, hsrc, byteLength_append, hpos]

theorem lt (h : Leaves src pos (c :: cs)) : pos < src.utf8ByteSize := by
  have hlength := h.add_byteLength
  have hc := c.utf8Size_pos
  rw [byteLength_cons] at hlength
  omega

theorem not_lt (h : Leaves src pos []) : ¬pos < src.utf8ByteSize := by
  have hlength := h.add_byteLength
  rw [byteLength_nil] at hlength
  omega

theorem isValid (h : Leaves src pos cs) : String.Pos.Raw.IsValid src ⟨pos⟩ := by
  obtain ⟨front, hsrc, rfl⟩ := h
  have hle : byteLength front ≤ src.utf8ByteSize := by
    rw [utf8ByteSize_eq, hsrc, byteLength_append]
    exact Nat.le_add_right _ _
  refine String.Pos.Raw.isValid_iff_exists_append.2 ⟨String.ofList front, String.ofList cs, ?_, ?_⟩
  · rw [← String.ofList_append, ← hsrc, String.ofList_toList]
  · rw [String.rawEndPos, utf8ByteSize_eq, String.toList_ofList]

theorem charAt?_eq (h : Leaves src pos cs) : charAt? src pos = cs.head?.map lead := by
  obtain ⟨front, hsrc, rfl⟩ := h
  rw [charAt?, bytes_eq, hsrc, List.getElem?_toArray, List.flatMap_append, byteLength_eq_length,
    List.getElem?_append_right (Nat.le_refl _), Nat.sub_self, ← List.head?_eq_getElem?]
  cases cs with
  | nil => rfl
  | cons c cs =>
    rw [List.flatMap_cons, List.head?_append, head?_utf8EncodeChar]
    refine congrArg (some ∘ Char.ofNat) ?_
    exact UInt8.toNat_ofNat_of_lt (firstByte_lt c)

theorem charAt_eq (h : Leaves src pos (c :: cs)) : charAt src pos = .ok (lead c) := by
  rw [charAt, h.charAt?_eq]
  rfl

/-- The part of a text up to what a position behind it leaves. -/
theorem slice_eq (h : Leaves src pos (taken ++ cs)) :
    slice src pos (pos + byteLength taken) = .ok (String.ofList taken) := by
  rw [slice, if_pos ⟨Nat.le_add_right _ _, h.isValid, h.skip.isValid⟩]
  obtain ⟨front, hsrc, rfl⟩ := h
  have hextract := String.extract_of_valid front taken cs
  rw [List.append_assoc, ← hsrc, String.ofList_toList, ← byteLength_eq, ← byteLength_eq] at hextract
  rw [hextract]

/-- The part of a text from a position to the end. -/
theorem slice_end (h : Leaves src pos cs) : slice src pos src.utf8ByteSize = .ok (String.ofList cs) := by
  have hall : Leaves src pos (cs ++ []) := by rwa [List.append_nil]
  rw [← h.add_byteLength, hall.slice_eq]

end Leaves

end Text

end Barrage
