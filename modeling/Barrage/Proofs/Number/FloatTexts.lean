import Barrage.Number.Layout
import Barrage.Proofs.Number.Shortest
import Barrage.Proofs.Number.Words

/-!
# Doubles as text

A finite double is written as digits around a point, after a minus sign if it has one and perhaps before an
exponent. Zeros that only place the point change the digits but not the number, so the text is read as a
numeral of the same value as the digits that were found for the double, and hence as the double.

## Main definitions

* `FloatText` — digits around a point, with an exponent or without one
* `IsFinite` — doubles that are numbers

## Main results

* `FloatText.exists_shows` — the text of a numeral is read as a numeral of the same value
* `readFloat?_render` — the text of a finite double is read as the double
-/

namespace Barrage

open Rounding

/-- The text of a double: digits around a point, and the exponent after them if there is one. -/
structure FloatText where
  whole : List Char
  fraction : List Char
  exponent : Option Int

/-- A whole number is written as digits, after a minus sign if it is negative. -/
theorem toList_toString (k : Int) : ∃ (sign : List Char) (d : Char) (ds : List Char),
    (toString k).toList = sign ++ d :: ds ∧ (∀ e ∈ d :: ds, e.isDigit = true) ∧
      (sign = [] ∧ k = Decimal.ofDigits (d :: ds) ∨ sign = ['-'] ∧ k = -(Decimal.ofDigits (d :: ds) : ℤ)) := by
  cases k with
  | ofNat k =>
    obtain ⟨d, ds, hds⟩ := List.exists_cons_of_ne_nil (Nat.toDigits_ne_nil (n := k) (b := 10))
    refine ⟨[], d, ds, ?_, fun e he => Checked.isDigit_of_mem_toDigits (hds ▸ he), .inl ⟨rfl, ?_⟩⟩
    · rw [List.nil_append, ← hds]
      exact Nat.toList_repr
    · rw [← hds]
      exact congrArg Int.ofNat Nat.ofDigitChars_ten_toDigits.symm
  | negSucc k =>
    obtain ⟨d, ds, hds⟩ := List.exists_cons_of_ne_nil (Nat.toDigits_ne_nil (n := k + 1) (b := 10))
    refine ⟨['-'], d, ds, ?_, fun e he => Checked.isDigit_of_mem_toDigits (hds ▸ he), .inr ⟨rfl, ?_⟩⟩
    · rw [← hds]
      change ("-" ++ Nat.repr (k + 1)).toList = _
      simp
    · rw [← hds]
      have hvalue : Decimal.ofDigits (Nat.toDigits 10 (k + 1)) = k + 1 := Nat.ofDigitChars_ten_toDigits
      rw [hvalue]
      rfl

namespace FloatText

/-- The characters of an exponent with its mark. -/
def exponentChars : Option Int → List Char
  | none => []
  | some k => 'e' :: (toString k).toList

/-- The characters of a text. -/
def chars (t : FloatText) : List Char := t.whole ++ '.' :: t.fraction ++ exponentChars t.exponent

/-- What a text is read as. -/
def numeral (t : FloatText) : Decimal :=
  ⟨Decimal.ofDigits (t.whole ++ t.fraction), t.exponent.getD 0 - t.fraction.length⟩

/-- Texts with digits on both sides of the point. -/
structure IsNumeral (t : FloatText) : Prop where
  whole : t.whole ≠ []
  fraction : t.fraction ≠ []
  digits : ∀ c ∈ t.whole ++ t.fraction, c.isDigit = true

variable {t : FloatText}

theorem exponentOfChars?_toString (k : Int) : Decimal.exponentOfChars? (toString k).toList = some k := by
  obtain ⟨sign, d, ds, hk, hall, hvalue⟩ := toList_toString k
  have hminus : d ≠ '-' := Checked.forall_digits (· ≠ '-') (by decide) (hall d (by simp))
  have hplus : d ≠ '+' := Checked.forall_digits (· ≠ '+') (by decide) (hall d (by simp))
  have hdigits : (d :: ds).all Char.isDigit = true := List.all_eq_true.2 hall
  rw [hk]
  rcases hvalue with ⟨rfl, hvalue⟩ | ⟨rfl, hvalue⟩
  · unfold Decimal.exponentOfChars?
    split
    rename_i negative digits heq
    split at heq
    · rename_i hcs
      exact absurd (List.cons.inj hcs).1 hminus
    · rename_i hcs
      exact absurd (List.cons.inj hcs).1 hplus
    · cases heq
      simp only [List.nil_append, hdigits, hvalue]
      rfl
  · unfold Decimal.exponentOfChars?
    simp only [List.cons_append, List.nil_append, hdigits, hvalue]
    rfl

theorem ofChars?_chars (h : t.IsNumeral) : Decimal.ofChars? t.chars = some t.numeral := by
  have hwhole : ∀ c ∈ t.whole, c.isDigit = true := fun c hc => h.digits c (by simp [hc])
  have hfraction : ∀ c ∈ t.fraction, c.isDigit = true := fun c hc => h.digits c (by simp [hc])
  have hnonempty : t.whole.isEmpty = false := by simpa using h.whole
  have hchars : t.chars = t.whole ++ '.' :: (t.fraction ++ exponentChars t.exponent) := by simp [chars]
  have htake : t.chars.takeWhile Char.isDigit = t.whole := by
    rw [hchars, List.takeWhile_append_of_pos hwhole, List.takeWhile_cons_of_neg (by decide), List.append_nil]
  have hdrop : t.chars.dropWhile Char.isDigit = '.' :: (t.fraction ++ exponentChars t.exponent) := by
    rw [hchars, List.dropWhile_append_of_pos hwhole, List.dropWhile_cons_of_neg (by decide)]
  unfold Decimal.ofChars?
  simp only [htake, hdrop, hnonempty]
  unfold numeral
  cases hexponent : t.exponent with
  | none =>
    have htake' : (t.fraction ++ exponentChars none).takeWhile Char.isDigit = t.fraction := by
      rw [List.takeWhile_append_of_pos hfraction]
      simp [exponentChars]
    have hdrop' : (t.fraction ++ exponentChars none).dropWhile Char.isDigit = [] := by
      rw [List.dropWhile_append_of_pos hfraction]
      rfl
    simp [htake', hdrop']
  | some k =>
    have htake' : (t.fraction ++ exponentChars (some k)).takeWhile Char.isDigit = t.fraction := by
      rw [List.takeWhile_append_of_pos hfraction]
      simp [exponentChars]
    have hdrop' : (t.fraction ++ exponentChars (some k)).dropWhile Char.isDigit =
        'e' :: (toString k).toList := by
      rw [List.dropWhile_append_of_pos hfraction]
      rfl
    simp only [htake', hdrop', exponentOfChars?_toString]
    rfl

/-! ### Layouts -/

/-- What the text of a double is read as stands for the same number as the digits it shows. -/
structure Shows (t : FloatText) (d : Decimal) (text : String) : Prop where
  isNumeral : t.IsNumeral
  chars : text.toList = t.chars
  value : t.numeral.value = d.value

theorem toDigits_isDigit (n : ℕ) : ∀ c ∈ Nat.toDigits 10 n, c.isDigit = true :=
  fun _ hc => Checked.isDigit_of_mem_toDigits hc

theorem replicate_isDigit (n : ℕ) : ∀ c ∈ List.replicate n '0', c.isDigit = true := by
  intro c hc
  rw [List.eq_of_mem_replicate hc]
  rfl

theorem value_eq {t : FloatText} {d : Decimal} {k : ℕ} (hexponent : t.exponent = none)
    (hdigits : Decimal.ofDigits (t.whole ++ t.fraction) = d.digits * 10 ^ k)
    (hlength : d.exponent = k - (t.fraction.length : ℤ)) : t.numeral.value = d.value := by
  have hten : (10 : ℚ) ≠ 0 := by norm_num
  unfold numeral Decimal.value
  rw [hexponent, hdigits, hlength, Option.getD_none, zpow_sub₀ hten, zpow_sub₀ hten, zpow_natCast,
    zpow_natCast, zpow_zero]
  push_cast
  ring

section Layouts

variable (d : Decimal)

theorem exists_shows_positional :
    ∃ t : FloatText, t.Shows d (FloatLayout.literal.positionalText d) := by
  have hne : Nat.toDigits 10 d.digits ≠ [] := Nat.toDigits_ne_nil
  have hpositive : 0 < (Nat.toDigits 10 d.digits).length := List.length_pos_iff.2 hne
  have hlength : (digitText d.digits).length = (Nat.toDigits 10 d.digits).length := by
    simp [digitText]
  have hdigits := toDigits_isDigit d.digits
  have hvalue : Nat.ofDigitChars 10 (Nat.toDigits 10 d.digits) 0 = d.digits := Nat.ofDigitChars_ten_toDigits
  unfold FloatLayout.positionalText
  simp only [hlength]
  have htext : digitText d.digits = String.ofList (Nat.toDigits 10 d.digits) := rfl
  rw [htext]
  generalize Nat.toDigits 10 d.digits = ds at *
  by_cases hsmall : (ds.length : ℤ) + d.exponent ≤ 0
  · rw [if_pos hsmall]
    obtain ⟨j, hj⟩ := Int.eq_ofNat_of_zero_le (show 0 ≤ -((ds.length : ℤ) + d.exponent) by omega)
    rw [hj, Int.toNat_natCast]
    refine ⟨⟨['0'], List.replicate j '0' ++ ds, none⟩, ⟨by simp, by simp [hne], ?_⟩, ?_, ?_⟩
    · intro c hc
      simp only [List.cons_append, List.nil_append, List.mem_cons, List.mem_append] at hc
      rcases hc with rfl | hc | hc
      · rfl
      · exact replicate_isDigit j c hc
      · exact hdigits c hc
    · simp [zeros, chars, exponentChars]
    · refine value_eq (k := 0) rfl ?_ ?_
      · change Nat.ofDigitChars 10 ('0' :: (List.replicate j '0' ++ ds)) 0 = _
        rw [Nat.ofDigitChars_cons, Nat.ofDigitChars_append, Nat.ofDigitChars_replicate_zero]
        simpa using hvalue
      · simp only [List.length_append, List.length_replicate]
        omega
  rw [if_neg hsmall]
  by_cases hlarge : (ds.length : ℤ) ≤ (ds.length : ℤ) + d.exponent
  · rw [if_pos hlarge]
    obtain ⟨j, hj⟩ := Int.eq_ofNat_of_zero_le (show 0 ≤ (ds.length : ℤ) + d.exponent - ds.length by omega)
    rw [hj, Int.toNat_natCast]
    refine ⟨⟨ds ++ List.replicate j '0', ['0'], none⟩, ⟨by simp [hne], by simp, ?_⟩, ?_, ?_⟩
    · intro c hc
      simp only [List.append_assoc, List.mem_append, List.mem_singleton] at hc
      rcases hc with hc | hc | rfl
      · exact hdigits c hc
      · exact replicate_isDigit j c hc
      · rfl
    · simp [zeros, FloatLayout.literal, chars, exponentChars]
    · refine value_eq (k := j + 1) rfl ?_ ?_
      · change Nat.ofDigitChars 10 (ds ++ List.replicate j '0' ++ ['0']) 0 = _
        rw [Nat.ofDigitChars_append, Nat.ofDigitChars_append, hvalue, Nat.ofDigitChars_replicate_zero,
          Nat.ofDigitChars_cons, Nat.ofDigitChars_nil, pow_succ]
        change 10 * (10 ^ j * d.digits) + 0 = _
        ring
      · simp only [List.length_singleton]
        push_cast
        omega
  · rw [if_neg hlarge]
    obtain ⟨p, hp⟩ := Int.eq_ofNat_of_zero_le (show 0 ≤ (ds.length : ℤ) + d.exponent by omega)
    rw [hp, Int.toNat_natCast]
    refine ⟨⟨ds.take p, ds.drop p, none⟩, ⟨?_, ?_, ?_⟩, ?_, ?_⟩
    · simp only [ne_eq, List.take_eq_nil_iff, not_or]
      exact ⟨by omega, hne⟩
    · simp only [ne_eq, List.drop_eq_nil_iff]
      omega
    · simpa using hdigits
    · simp [chars, exponentChars]
    · refine value_eq (k := 0) rfl ?_ ?_
      · rw [List.take_append_drop, pow_zero, mul_one]
        exact hvalue
      · simp only [List.length_drop]
        omega

theorem exists_shows_exponent : ∃ t : FloatText, t.Shows d (FloatLayout.literal.exponentText d) := by
  obtain ⟨c, cs, hcs⟩ := List.exists_cons_of_ne_nil (Nat.toDigits_ne_nil (n := d.digits) (b := 10))
  have hdigits : ∀ e ∈ c :: cs, e.isDigit = true := hcs ▸ toDigits_isDigit d.digits
  have hvalue : Nat.ofDigitChars 10 (c :: cs) 0 = d.digits := by
    rw [← hcs]
    exact Nat.ofDigitChars_ten_toDigits
  have hten : (10 : ℚ) ≠ 0 := by norm_num
  have hlength : (String.ofList (c :: cs)).length = cs.length + 1 := String.length_ofList
  unfold FloatLayout.exponentText
  have hexponent : d.exponent + ((cs.length + 1 : ℕ) : ℤ) - 1 = d.exponent + cs.length := by omega
  simp only [digitText, hcs, String.toList_ofList, hlength, hexponent]
  cases cs with
  | nil =>
    refine ⟨⟨[c], ['0'], some d.exponent⟩, ⟨by simp, by simp, ?_⟩, ?_, ?_⟩
    · intro e he
      simp only [List.cons_append, List.nil_append, List.mem_cons, List.not_mem_nil, or_false] at he
      rcases he with rfl | rfl
      · exact hdigits _ (by simp)
      · rfl
    · simp [FloatLayout.literal, chars, exponentChars]
    · have hzero : Decimal.ofDigits ([c] ++ ['0']) = d.digits * 10 := by
        change Nat.ofDigitChars 10 ([c] ++ ['0']) 0 = _
        rw [Nat.ofDigitChars_append, hvalue]
        simp [Nat.ofDigitChars_cons, mul_comm]
      unfold numeral Decimal.value
      simp only [hzero, Option.getD_some, List.length_singleton]
      rw [zpow_sub₀ hten]
      push_cast
      ring
  | cons f fs =>
    refine ⟨⟨[c], f :: fs, some (d.exponent + (f :: fs).length)⟩,
      ⟨by simp, by simp, by simpa using hdigits⟩, ?_, ?_⟩
    · simp [chars, exponentChars]
    · unfold numeral Decimal.value
      have hdigits : Decimal.ofDigits ([c] ++ f :: fs) = d.digits := hvalue
      simp only [hdigits, Option.getD_some]
      congr 2
      omega

/-- The text of a numeral is read as a numeral of the same value. -/
theorem exists_shows : ∃ t : FloatText, t.Shows d (FloatLayout.literal.numeral d) := by
  unfold FloatLayout.numeral
  simp only [FloatLayout.literal]
  split
  · exact exists_shows_positional d
  · exact exists_shows_exponent d

end Layouts

end FloatText

/-! ### Doubles -/

/-- Whether a double is a number. -/
def IsFinite (x : Float) : Prop :=
  ∃ negative mantissa exponent, Binary.ofFloat x = .finite negative mantissa exponent

variable {x : Float} {negative : Bool} {m : ℕ} {e : ℤ}

/-- The numeral that a number without its sign is written as. -/
def magnitudeText (m : ℕ) (e : ℤ) : String :=
  if m = 0 then "0.0" else FloatLayout.literal.numeral (Decimal.shortest m e)

theorem render_literal (h : Binary.ofFloat x = .finite negative m e) :
    FloatLayout.literal.render x = (if negative then "-" else "") ++ magnitudeText m e := by
  unfold FloatLayout.render
  simp only [h]
  cases negative <;> rfl

/-- Text that opens with a digit is no word for a special number. -/
theorem ofList_ne {d : Char} (hd : d.isDigit = true) (ds : List Char) {c : Char} (hc : c.isDigit = false)
    (cs : List Char) : String.ofList (d :: ds) ≠ String.ofList (c :: cs) := by
  intro heq
  have := (List.cons.inj (String.ofList_inj.1 heq)).1
  rw [this, hc] at hd
  cases hd

/-- A text of digits around a point is read as its numeral. -/
theorem readFloat?_chars {t : FloatText} (h : t.IsNumeral) (negative : Bool) :
    readFloat? (String.ofList ((if negative then ['-'] else []) ++ t.chars)) =
      some (if negative then -t.numeral.toFloat else t.numeral.toFloat) := by
  have hread := FloatText.ofChars?_chars h
  obtain ⟨d, ds, hds⟩ := List.exists_cons_of_ne_nil h.whole
  obtain ⟨cs, hcs⟩ : ∃ cs, t.chars = d :: cs := ⟨_, by rw [FloatText.chars, hds]; rfl⟩
  have hd : d.isDigit = true := h.digits d (by simp [hds])
  have hlower : d.toLower = d := Checked.forall_digits (fun c => c.toLower = c) (by decide) hd
  rw [hcs] at hread ⊢
  have hinf : String.ofList ((d :: cs).map Char.toLower) ≠ "inf" := by
    rw [List.map_cons, hlower]
    exact ofList_ne hd _ (c := 'i') rfl ['n', 'f']
  have hinfinity : String.ofList ((d :: cs).map Char.toLower) ≠ "infinity" := by
    rw [List.map_cons, hlower]
    exact ofList_ne hd _ (c := 'i') rfl ['n', 'f', 'i', 'n', 'i', 't', 'y']
  have hnan : String.ofList ((d :: cs).map Char.toLower) ≠ "nan" := by
    rw [List.map_cons, hlower]
    exact ofList_ne hd _ (c := 'n') rfl ['a', 'n']
  have hbody : ∀ negative : Bool, ((Decimal.ofChars? (d :: cs)).map Decimal.toFloat).map
      (fun x => if negative then -x else x) =
        some (if negative then -t.numeral.toFloat else t.numeral.toFloat) := by
    intro negative
    rw [hread]
    rfl
  unfold readFloat?
  rw [String.toList_ofList]
  cases negative with
  | true =>
    rw [if_pos rfl, if_pos rfl]
    simp only [List.cons_append, List.nil_append, if_true]
    exact hbody true
  | false =>
    rw [if_neg (by decide), List.nil_append]
    split
    rename_i negative body heq
    split at heq
    · rename_i hminus
      have : d = '-' := (List.cons.inj hminus).1
      rw [this] at hd
      cases hd
    · rename_i hplus
      have : d = '+' := (List.cons.inj hplus).1
      rw [this] at hd
      cases hd
    · cases heq
      split
      · exact absurd ‹_› hinf
      · exact absurd ‹_› hinfinity
      · exact absurd ‹_› hnan
      · exact hbody false

/-- The sign of a number is taken off it. -/
theorem eq_signed (h : Binary.ofFloat x = .finite negative m e) (hpos : 0 < m) :
    x = if negative then -double m e hpos else double m e hpos := by
  obtain ⟨hm, he, hx⟩ := eq_ofModel_of_ofFloat h hpos
  rw [hx]
  cases negative with
  | false => rfl
  | true =>
    have hneg : -double m e hpos = _ := neg_ofModel _ (unpack_pack hm he)
    rw [if_pos rfl, hneg]
    rfl

theorem eq_zero (h : Binary.ofFloat x = .finite negative 0 e) :
    x = if negative then -Decimal.toFloat ⟨0, -1⟩ else Decimal.toFloat ⟨0, -1⟩ := by
  rw [eq_ofModel_of_ofFloat_zero h]
  refine eq_of_toBits ?_
  cases negative <;> decide +kernel

/-- A number is written as a sign, if it has one, and digits around a point that are read as the number. -/
theorem exists_floatText (h : IsFinite x) : ∃ (negative : Bool) (t : FloatText), t.IsNumeral ∧
    (FloatLayout.literal.render x).toList = (if negative then ['-'] else []) ++ t.chars ∧
      x = if negative then -t.numeral.toFloat else t.numeral.toFloat := by
  obtain ⟨negative, m, e, hx⟩ := h
  obtain ⟨t, ht, hchars, hfloat⟩ : ∃ t : FloatText, t.IsNumeral ∧ (magnitudeText m e).toList = t.chars ∧
      x = if negative then -t.numeral.toFloat else t.numeral.toFloat := by
    unfold magnitudeText
    by_cases hzero : m = 0
    · subst hzero
      refine ⟨⟨['0'], ['0'], none⟩, ⟨by simp, by simp, by simp⟩, ?_, eq_zero hx⟩
      simp [FloatText.chars, FloatText.exponentChars]
    · rw [if_neg hzero]
      have hpos : 0 < m := Nat.pos_of_ne_zero hzero
      obtain ⟨hm, he, -⟩ := eq_ofModel_of_ofFloat hx hpos
      obtain ⟨t, ht, hchars, hvalue⟩ := FloatText.exists_shows (Decimal.shortest m e)
      have hcovers : Covers m e t.numeral.value := by
        rw [hvalue]
        exact Decimal.covers_shortest hm
      refine ⟨t, ht, hchars, ?_⟩
      rw [Decimal.toFloat_eq hm he hcovers]
      exact eq_signed hx hpos
  refine ⟨negative, t, ht, ?_, hfloat⟩
  rw [render_literal hx, String.toList_append, hchars]
  cases negative <;> rfl

/-- A number is written as text that is read as the number. -/
theorem readFloat?_render (h : IsFinite x) : readFloat? (FloatLayout.literal.render x) = some x := by
  obtain ⟨negative, t, ht, hchars, hfloat⟩ := exists_floatText h
  have htext : FloatLayout.literal.render x =
      String.ofList ((if negative then ['-'] else []) ++ t.chars) := by
    rw [← hchars, String.ofList_toList]
  rw [htext, readFloat?_chars ht, ← hfloat]

end Barrage
