import Barrage.Chunk.Token
import Barrage.Proofs.Number.FloatTexts

/-!
# Numbers in chunks

A printed number is followed by a blank, a closing parenthesis, a comma or a semicolon. The scanner takes
all of its characters and nothing more, and makes the number of them that was printed.

## Main definitions

* `ChunkToken.ends` — the characters that follow an operand

## Main results

* `ChunkToken.next?_int`, `ChunkToken.next?_float` — a printed number is cut into the number that was printed
-/

namespace Barrage.ChunkToken

/-- Whether a character can follow an operand. -/
def ends (c : Char) : Bool := c == ' ' || c == ')' || c == ',' || c == ';'

theorem mem_of_ends {c : Char} (h : ends c = true) : c ∈ [' ', ')', ',', ';'] := by
  simpa [ends, or_assoc] using h

/-- What holds of the four characters holds of every one that can follow an operand. -/
theorem forall_ends (p : Char → Prop) [DecidablePred p] (h : [' ', ')', ',', ';'].all (decide <| p ·) = true) {c : Char}
    (hc : ends c = true) : p c :=
  of_decide_eq_true (List.all_eq_true.1 h c (mem_of_ends hc))

variable {cs ds rest : List Char} {c d : Char}

theorem numeral_of_ends (h : ends c = true) (rest : List Char) : numeral (c :: rest) = ([], c :: rest) := by
  have hdigit : c.isDigit = false := forall_ends (Char.isDigit · = false) (by decide) h
  have hbar : c ≠ '_' := forall_ends (· ≠ '_') (by decide) h
  have hpoint : c ≠ '.' := forall_ends (· ≠ '.') (by decide) h
  have hlower : c ≠ 'e' := forall_ends (· ≠ 'e') (by decide) h
  have hupper : c ≠ 'E' := forall_ends (· ≠ 'E') (by decide) h
  cases rest with
  | nil => simp [numeral, hdigit, hbar]
  | cons d rest => simp [numeral, hdigit, hbar, hpoint, hlower, hupper]

/-- Digits are taken, and what follows them goes on as it would alone. -/
theorem numeral_digits (h : ∀ d ∈ ds, d.isDigit = true) (c : Char) (rest : List Char) :
    numeral (ds ++ c :: rest) = (ds ++ (numeral (c :: rest)).1, (numeral (c :: rest)).2) := by
  induction ds with
  | nil => rfl
  | cons d ds ih =>
    have hd : d.isDigit = true := h d (by simp)
    have hrest := ih fun e he => h e (by simp [he])
    cases ds with
    | nil => simp [numeral, hd]
    | cons e ds =>
      rw [List.cons_append, List.cons_append, numeral, if_pos hd, ← List.cons_append, hrest]
      rfl

theorem numeral_point (hd : d.isDigit = true) (rest : List Char) :
    numeral ('.' :: d :: rest) = ('.' :: (numeral (d :: rest)).1, (numeral (d :: rest)).2) := by
  have hpoint : d ≠ '.' := Checked.forall_digits (· ≠ '.') (by decide) hd
  have hname : Scanned.opensName d = false :=
    Checked.forall_digits (Scanned.opensName · = false) (by decide) hd
  rw [numeral]
  simp [hpoint, hname]

theorem numeral_exponent (hd : d.isDigit = true) (rest : List Char) :
    numeral ('e' :: d :: rest) = ('e' :: (numeral (d :: rest)).1, (numeral (d :: rest)).2) := by
  rw [numeral]
  simp [hd]

theorem numeral_exponent_minus (rest : List Char) :
    numeral ('e' :: '-' :: rest) = ('e' :: '-' :: (numeral rest).1, (numeral rest).2) := by
  rw [numeral]
  simp

theorem numeral_exponentChars (exponent : Option Int) (hc : ends c = true) (rest : List Char) :
    numeral (FloatText.exponentChars exponent ++ c :: rest) = (FloatText.exponentChars exponent, c :: rest) := by
  cases exponent with
  | none => exact numeral_of_ends hc rest
  | some k =>
    obtain ⟨sign, d, ds, hk, hall, hsign⟩ := toList_toString k
    have hdigits := numeral_digits hall c rest
    rw [numeral_of_ends hc] at hdigits
    simp only [List.append_nil] at hdigits
    rw [FloatText.exponentChars, hk]
    rcases hsign with ⟨rfl, _⟩ | ⟨rfl, _⟩
    · simp only [List.nil_append, List.cons_append] at hdigits ⊢
      rw [numeral_exponent (hall d (by simp)), hdigits]
    · simp only [List.nil_append, List.cons_append] at hdigits ⊢
      rw [numeral_exponent_minus, hdigits]

/-- The scanner takes all of a double. -/
theorem numeral_chars {t : FloatText} (h : t.IsNumeral) (hc : ends c = true) (rest : List Char) :
    numeral (t.chars ++ c :: rest) = (t.chars, c :: rest) := by
  have hwhole : ∀ e ∈ t.whole, e.isDigit = true := fun e he => h.digits e (by simp [he])
  have hfraction : ∀ e ∈ t.fraction, e.isDigit = true := fun e he => h.digits e (by simp [he])
  obtain ⟨f, fs, hfs⟩ := List.exists_cons_of_ne_nil h.fraction
  obtain ⟨b, bs, hb⟩ : ∃ b bs, FloatText.exponentChars t.exponent ++ c :: rest = b :: bs := by
    cases t.exponent <;> exact ⟨_, _, rfl⟩
  have htail := numeral_exponentChars t.exponent hc rest
  have hchars : t.chars ++ c :: rest =
      t.whole ++ '.' :: (t.fraction ++ (FloatText.exponentChars t.exponent ++ c :: rest)) := by
    simp [FloatText.chars]
  have hpoint : numeral ('.' :: (t.fraction ++ (FloatText.exponentChars t.exponent ++ c :: rest))) =
      ('.' :: (t.fraction ++ FloatText.exponentChars t.exponent), c :: rest) := by
    have hdigits := numeral_digits hfraction b bs
    rw [← hb, htail] at hdigits
    rw [hfs, List.cons_append, numeral_point (hfraction f (by simp [hfs])), ← List.cons_append, ← hfs, hdigits]
  rw [hchars, numeral_digits hwhole, hpoint]
  simp [FloatText.chars]

/-! ### What the characters make -/

/-- Whether a character rules out that the zero before it announces a base. -/
def quiet (c : Char) : Bool := c != '_' && c.toLower != 'x' && c.toLower != 'o' && c.toLower != 'b'

theorem announced?_of_quiet {first : Char} (h : quiet c = true) (rest : List Char) :
    announced? first (c :: rest) = none := by
  simp only [quiet, Bool.and_eq_true, bne_iff_ne, ne_eq] at h
  obtain ⟨⟨⟨hbar, hx⟩, ho⟩, hb⟩ := h
  unfold announced?
  rw [List.dropWhile_cons_of_neg (by simpa using hbar)]
  split
  · rename_i heq
    cases heq
    split
    · exact absurd ‹_› hx
    · exact absurd ‹_› ho
    · exact absurd ‹_› hb
    · rfl
  · rfl

/-- Digits announce no base, and neither does a character that follows an operand or a point. -/
theorem announced?_digits {first : Char} (h : ∀ e ∈ ds, e.isDigit = true) (hc : quiet c = true)
    (rest : List Char) : announced? first (ds ++ c :: rest) = none := by
  cases ds with
  | nil => exact announced?_of_quiet hc rest
  | cons d ds =>
    have hd : quiet d = true := Checked.forall_digits (quiet · = true) (by decide) (h d (by simp))
    exact announced?_of_quiet hd _

/-- A number that announces no base is made of all its characters. -/
theorem next?_digit {whole cs : List Char} {before : Bool} (hd : d.isDigit = true) (hcs : cs ≠ [])
    (hannounced : announced? d cs = none) :
    next? whole before d cs = (number? (numeral (d :: cs)).1).map fun t => (t, (numeral (d :: cs)).2) := by
  obtain ⟨b, bs, rfl⟩ := List.exists_cons_of_ne_nil hcs
  have hnumeral : numeral (d :: b :: bs) = (d :: (numeral (b :: bs)).1, (numeral (b :: bs)).2) :=
    numeral_digits (by simpa using hd : ∀ e ∈ [d], e.isDigit = true) b bs
  rw [next?, if_pos hd, numberFrom?, hannounced, hnumeral]

/-- A minus sign that no operand stands before belongs to the digit after it. -/
theorem next?_minus {whole : List Char} (hd : d.isDigit = true) (cs : List Char) :
    next? whole false '-' (d :: cs) =
      (number? ('-' :: (numeral (d :: cs)).1)).map fun t => (t, (numeral (d :: cs)).2) := by
  have hminus : d ≠ '-' := Checked.forall_digits (· ≠ '-') (by decide) hd
  have hkept : isKept '-' (some d) = false := by simp [isKept, hminus]
  simp [next?, Scanned.opensName, hkept, hd]

/-- A whole number is cut into itself. -/
theorem next?_int (whole : List Char) (n : Int64) (hc : ends c = true) (rest : List Char) :
    ∃ d ds, (toString n.toInt).toList = d :: ds ∧ (d = '-' ∨ d.isDigit = true) ∧
      next? whole false d (ds ++ c :: rest) = some (int n, c :: rest) := by
  obtain ⟨sign, d, ds, hn, hall, hsign⟩ := toList_toString n.toInt
  have hword : Checked.ofText? (toString n.toInt) = some n := Checked.ofText?_toString n
  have hd : d.isDigit = true := hall d (by simp)
  have hnumeral := numeral_digits hall c rest
  rw [numeral_of_ends hc, List.append_nil, List.cons_append] at hnumeral
  rw [← String.ofList_toList (s := toString n.toInt), hn] at hword
  rcases hsign with ⟨rfl, _⟩ | ⟨rfl, _⟩
  · have hquiet : quiet c = true := forall_ends (quiet · = true) (by decide) hc
    have hannounced : announced? d (ds ++ c :: rest) = none :=
      announced?_digits (fun e he => hall e (by simp [he])) hquiet rest
    have hnumber : number? (d :: ds) = some (int n) := by
      simp only [List.nil_append] at hword
      rw [number?, hword]
    refine ⟨d, ds, hn, .inr hd, ?_⟩
    rw [next?_digit hd (by simp) hannounced, hnumeral, hnumber]
    rfl
  · have hnumber : number? ('-' :: d :: ds) = some (int n) := by
      simp only [List.cons_append, List.nil_append] at hword
      rw [number?, hword]
    refine ⟨'-', d :: ds, hn, .inl rfl, ?_⟩
    rw [List.cons_append, next?_minus hd, hnumeral, hnumber]
    rfl

/-- A double is cut into itself. -/
theorem next?_float (whole : List Char) {x : Float} (hx : IsFinite x) (hc : ends c = true)
    (rest : List Char) :
    ∃ d ds, (FloatLayout.literal.render x).toList = d :: ds ∧ (d = '-' ∨ d.isDigit = true) ∧
      next? whole false d (ds ++ c :: rest) = some (float x, c :: rest) := by
  obtain ⟨negative, t, ht, hchars, -⟩ := exists_floatText hx
  have hread := readFloat?_render hx
  rw [← String.ofList_toList (s := FloatLayout.literal.render x), hchars] at hread
  have hnumeral := numeral_chars ht hc rest
  obtain ⟨d, ds, hds⟩ := List.exists_cons_of_ne_nil ht.whole
  have hd : d.isDigit = true := ht.digits d (by simp [hds])
  have htail : t.chars = d :: (ds ++ '.' :: (t.fraction ++ FloatText.exponentChars t.exponent)) := by
    simp [FloatText.chars, hds]
  obtain ⟨cs, hcs⟩ : ∃ cs, cs = ds ++ '.' :: (t.fraction ++ FloatText.exponentChars t.exponent) := ⟨_, rfl⟩
  have hpoint : '.' ∈ cs := by simp [hcs]
  rw [htail, ← hcs] at hnumeral hchars hread
  rw [List.cons_append] at hnumeral
  cases negative with
  | false =>
    have hannounced : announced? d (cs ++ c :: rest) = none := by
      rw [hcs, List.append_assoc]
      exact announced?_digits (fun e he => ht.digits e (by simp [hds, he])) rfl _
    have hword : Checked.ofText? (String.ofList (d :: cs)) = none :=
      Checked.ofText?_eq_none (.inr hd) hpoint rfl
    have hnumber : number? (d :: cs) = some (float x) := by
      simp only [Bool.false_eq_true, if_false, List.nil_append] at hread
      rw [number?, hword, hread]
      rfl
    refine ⟨d, cs, hchars, .inr hd, ?_⟩
    rw [next?_digit hd (by simp) hannounced, hnumeral, hnumber]
    rfl
  | true =>
    have hword : Checked.ofText? (String.ofList ('-' :: d :: cs)) = none :=
      Checked.ofText?_eq_none (.inl rfl) (List.mem_cons_of_mem d hpoint) rfl
    have hnumber : number? ('-' :: d :: cs) = some (float x) := by
      simp only [if_true, List.cons_append, List.nil_append] at hread
      rw [number?, hword, hread]
      rfl
    refine ⟨'-', d :: cs, hchars, .inl rfl, ?_⟩
    rw [List.cons_append, next?_minus hd, hnumeral, hnumber]
    rfl

end Barrage.ChunkToken
