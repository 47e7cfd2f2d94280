import Mathlib.Algebra.Order.Field.Power
import Mathlib.Data.Rat.Cast.Order
import Mathlib.Tactic.FieldSimp
import Mathlib.Tactic.IntervalCases
import Mathlib.Tactic.Linarith
import Mathlib.Tactic.NormNum
import Mathlib.Tactic.Positivity
import Mathlib.Tactic.Ring

/-!
# Rounding to doubles

The logical model of doubles rounds a mantissa with two more bits, the second of which stands for all that
were shifted out. Such a mantissa stands for a rational number, and shifting it to another exponent divides
the number. A double covers the numbers that lie nearer to it than to its neighbours; below a power of two
they reach half as far as above it. Rounding what stands for a number gives the double that covers it,
and so do multiplication and division.

## Main definitions

* `Rounding.StandsFor` — a mantissa with its two bits stands for a rational number
* `Rounding.Canonical` — mantissas and exponents of positive doubles
* `Rounding.Covers` — the numbers that are rounded to a double

## Main results

* `Rounding.roundWithAccuracy_eq` — rounding gives the double that covers what is rounded
* `Rounding.mul_eq`, `Rounding.div_eq` — products and quotients are rounded from their exact values
-/

namespace Barrage.Rounding

open Float.Model Float.Model.UnpackedFloat

/-- The mantissa is the whole part of the number. The first bit tells whether the rest is at least a half,
and the second whether it is neither nothing nor a half. -/
structure StandsFor (em : ExtendedMantissa) (v : ℚ) : Prop where
  lower : (em.mantissa : ℚ) ≤ v
  upper : v < em.mantissa + 1
  round : em.roundBit = true ↔ (em.mantissa : ℚ) + 1 / 2 ≤ v
  sticky : em.stickyBit = true ↔ v ≠ em.mantissa ∧ v ≠ em.mantissa + 1 / 2

/-- `k` is the whole number that `v` is rounded to. -/
structure Nearest (k : ℕ) (v : ℚ) : Prop where
  lower : (k : ℚ) - 1 / 2 ≤ v
  upper : v ≤ k + 1 / 2
  tie : k % 2 = 0 ∨ (k : ℚ) - 1 / 2 < v ∧ v < k + 1 / 2

variable {em : ExtendedMantissa} {v : ℚ}

theorem StandsFor.inexact (h : StandsFor em v) :
    (em.roundBit || em.stickyBit) = true ↔ v ≠ em.mantissa := by
  rw [Bool.or_eq_true, h.round, h.sticky]
  constructor
  · rintro (hround | ⟨hne, _⟩) heq
    · linarith
    · exact hne heq
  · intro hne
    by_cases hround : (em.mantissa : ℚ) + 1 / 2 ≤ v
    · exact .inl hround
    · exact .inr ⟨hne, fun heq => hround heq.ge⟩

theorem StandsFor.halved (h : StandsFor em v) : StandsFor em.shiftRightOne (v / 2) := by
  have hinexact := h.inexact
  have hlower := h.lower
  have hupper := h.upper
  have hparts : (em.mantissa : ℚ) = 2 * ((em.mantissa / 2 : ℕ) : ℚ) + ((em.mantissa % 2 : ℕ) : ℚ) := by
    exact_mod_cast (Nat.div_add_mod em.mantissa 2).symm
  rcases Nat.mod_two_eq_zero_or_one em.mantissa with hmod | hmod
  · rw [hmod, Nat.cast_zero, add_zero] at hparts
    constructor
    all_goals simp only [ExtendedMantissa.shiftRightOne, hmod]
    · linarith
    · linarith
    · simp only [bne_self_eq_false, Bool.false_eq_true, false_iff]
      intro hround
      linarith
    · rw [hinexact]
      constructor
      · intro hne
        exact ⟨fun heq => hne (by linarith), fun heq => by linarith⟩
      · rintro ⟨hne, _⟩ heq
        exact hne (by linarith)
  · rw [hmod, Nat.cast_one] at hparts
    constructor
    all_goals simp only [ExtendedMantissa.shiftRightOne, hmod]
    · linarith
    · linarith
    · simp only [bne_iff_ne, ne_eq, one_ne_zero, not_false_eq_true, true_iff]
      linarith
    · rw [hinexact]
      constructor
      · intro hne
        exact ⟨fun heq => by linarith, fun heq => hne (by linarith)⟩
      · rintro ⟨_, hne⟩ heq
        exact hne (by linarith)

theorem StandsFor.shifted (h : StandsFor em v) (n : ℕ) : StandsFor (em >>> n) (v / 2 ^ n) := by
  induction n with
  | zero =>
    rw [pow_zero, div_one]
    exact h
  | succ n ih =>
    rw [pow_succ, ← div_div]
    exact ih.halved

theorem StandsFor.rounded (h : StandsFor em v) {k : ℕ} (hk : Nearest k v) :
    em.roundedMantissa = k := by
  obtain ⟨M, r, s⟩ := em
  obtain ⟨hlower, hupper, hround, hsticky⟩ := h
  simp only at hlower hupper hround hsticky
  obtain ⟨hkl, hku, htie⟩ := hk
  have hle : M ≤ k := by
    have hlt : (M : ℚ) < (k + 1 : ℕ) := by
      push_cast
      linarith
    have := Nat.cast_lt.1 hlt
    omega
  have hge : k ≤ M + 1 := by
    have hlt : (k : ℚ) < (M + 2 : ℕ) := by
      push_cast
      linarith
    have := Nat.cast_lt.1 hlt
    omega
  have hcases : k = M ∨ k = M + 1 := by omega
  unfold ExtendedMantissa.roundedMantissa
  cases r with
  | false =>
    have hbelow : v < M + 1 / 2 := not_le.1 fun hge => Bool.false_ne_true (hround.2 hge)
    have hk : k = M := by
      rcases hcases with hk | rfl
      · exact hk
      · push_cast at hkl
        linarith
    cases s <;> exact hk.symm
  | true =>
    have habove : (M : ℚ) + 1 / 2 ≤ v := hround.1 rfl
    cases s with
    | true =>
      obtain ⟨-, hne⟩ := hsticky.1 rfl
      have hlt : (M : ℚ) + 1 / 2 < v := lt_of_le_of_ne habove (Ne.symm hne)
      rcases hcases with rfl | hk
      · linarith
      · exact hk.symm
    | false =>
      have htied : v = M + 1 / 2 := by
        by_contra hne
        exact Bool.false_ne_true (hsticky.2 ⟨fun heq => by linarith, hne⟩)
      change M + M % 2 = k
      rcases hcases with rfl | rfl
      · rcases htie with heven | ⟨_, hlt⟩
        · omega
        · linarith
      · rcases htie with heven | ⟨hlt, _⟩
        · omega
        · push_cast at hlt
          linarith

/-! ### Rounding -/

/-- Mantissas and exponents of positive doubles. -/
structure Canonical (m : ℕ) (e : ℤ) : Prop where
  pos : 0 < m
  upper : m < 2 ^ 53
  least : -1074 ≤ e
  normal : m < 2 ^ 52 → e = -1074

/-- Half the distance to the double below. -/
def gap (m : ℕ) : ℚ := if m = 2 ^ 52 then 1 / 4 else 1 / 2

/-- The values that are rounded to `m · 2 ^ e`. -/
structure Covers (m : ℕ) (e : ℤ) (V : ℚ) : Prop where
  lower : (m - gap m) * 2 ^ e ≤ V
  upper : V ≤ (m + 1 / 2) * 2 ^ e
  tie : m % 2 = 0 ∨ (m - gap m) * 2 ^ e < V ∧ V < (m + 1 / 2) * 2 ^ e

variable {m : ℕ} {e : ℤ} {V : ℚ}

theorem targetExponent_eq (t : ℤ) : Format.binary64.targetExponent t = max (t - 53) (-1074) := rfl

theorem shiftToTargetExponent_eq (M : ℕ) (E : ℤ) (acc : Accuracy) :
    shiftToTargetExponent .binary64 M E acc =
      (ExtendedMantissa.ofMantissaAndAccuracy M acc >>> (max (M.log2 + 1 + E - 53) (-1074) - E).toNat,
        E + (max (M.log2 + 1 + E - 53) (-1074) - E).toNat) := rfl

theorem gap_le (m : ℕ) : gap m ≤ 1 / 2 := by
  unfold gap
  split
  · norm_num
  · exact le_rfl

/-- The exponent of a double is the one that its leading digit asks for. -/
theorem Canonical.exponent_eq (h : Canonical m e) : max ((m.log2 : ℤ) + 1 + e - 53) (-1074) = e := by
  have hleast := h.least
  have hlt : m.log2 < 53 := (Nat.log2_lt h.pos.ne').2 h.upper
  by_cases hsmall : m < 2 ^ 52
  · have hlog : m.log2 < 52 := (Nat.log2_lt h.pos.ne').2 hsmall
    have := h.normal hsmall
    omega
  · have hlog : 52 ≤ m.log2 := (Nat.le_log2 h.pos.ne').2 (by omega)
    omega

theorem Covers.lt_of_lt (hV : Covers m e V) {n : ℕ} (h : m < 2 ^ n) : V < 2 ^ ((n : ℤ) + e) := by
  have hpos : (0 : ℚ) < 2 ^ e := by positivity
  have hm : (m : ℚ) + 1 ≤ 2 ^ n := by exact_mod_cast h
  calc
    V ≤ (m + 1 / 2) * 2 ^ e := hV.upper
    _ < 2 ^ n * 2 ^ e := by
      apply mul_lt_mul_of_pos_right _ hpos
      linarith
    _ = 2 ^ ((n : ℤ) + e) := by rw [zpow_add₀ two_ne_zero, zpow_natCast]

/-- The value lies in the octave of the double, or in the one below it if the double is a power of two. -/
theorem Covers.lt_of_normal (hV : Covers m e V) (h : 2 ^ 52 ≤ m) : (2 : ℚ) ^ (51 + e) < V := by
  have hpos : (0 : ℚ) < 2 ^ e := by positivity
  have hm : (4503599627370496 : ℚ) ≤ m := by exact_mod_cast h
  have hgap := gap_le m
  calc
    (2 : ℚ) ^ (51 + e) = 2 ^ 51 * 2 ^ e := by rw [zpow_add₀ two_ne_zero]; norm_num
    _ < (m - gap m) * 2 ^ e := by
      apply mul_lt_mul_of_pos_right _ hpos
      norm_num
      linarith
    _ ≤ V := hV.lower

theorem Covers.le_of_normal (hV : Covers m e V) (h : 2 ^ 52 < m) : (2 : ℚ) ^ (52 + e) ≤ V := by
  have hpos : (0 : ℚ) < 2 ^ e := by positivity
  have hm : (4503599627370496 : ℚ) + 1 ≤ m := by exact_mod_cast h
  have hgap := gap_le m
  calc
    (2 : ℚ) ^ (52 + e) = 2 ^ 52 * 2 ^ e := by rw [zpow_add₀ two_ne_zero]; norm_num
    _ ≤ (m - gap m) * 2 ^ e := by
      apply mul_le_mul_of_nonneg_right _ hpos.le
      norm_num
      linarith
    _ ≤ V := hV.lower

/-- What is to be rounded has the exponent of the double, or the one below it if the double is a power of
two and the value is less. -/
theorem Covers.exponent_cases (hV : Covers m e V) (hm : Canonical m e) {M : ℕ} {E : ℤ}
    (hlower : M * 2 ^ E ≤ V) (hupper : V < (M + 1) * 2 ^ E) (hprecise : E ≤ -1074 ∨ 2 ^ 52 ≤ M) :
    max ((M.log2 : ℤ) + 1 + E - 53) (-1074) = e ∨
      max ((M.log2 : ℤ) + 1 + E - 53) (-1074) = e - 1 ∧ m = 2 ^ 52 ∧ V < 2 ^ (52 + e) := by
  have hleast := hm.least
  have hpos : (0 : ℚ) < 2 ^ E := by positivity
  by_cases hM : M = 0
  · subst hM
    have hE : E ≤ -1074 := by simpa using hprecise
    have hlog : Nat.log2 0 = 0 := rfl
    by_cases hsmall : m < 2 ^ 52
    · have := hm.normal hsmall
      omega
    · have hless : V < 2 ^ E := by simpa using hupper
      have hgreater := hV.lt_of_normal (by omega)
      have hexp := (zpow_lt_zpow_iff_right₀ one_lt_two).1 (hgreater.trans hless)
      omega
  · have hlow : (2 : ℚ) ^ ((M.log2 : ℤ) + E) ≤ V := by
      have hself : ((2 ^ M.log2 : ℕ) : ℚ) ≤ M := by exact_mod_cast Nat.log2_self_le hM
      calc
        (2 : ℚ) ^ ((M.log2 : ℤ) + E) = ((2 ^ M.log2 : ℕ) : ℚ) * 2 ^ E := by
          rw [zpow_add₀ two_ne_zero, zpow_natCast]
          push_cast
          rfl
        _ ≤ M * 2 ^ E := mul_le_mul_of_nonneg_right hself hpos.le
        _ ≤ V := hlower
    have hhigh : V < 2 ^ ((M.log2 : ℤ) + 1 + E) := by
      have hself : (M : ℚ) + 1 ≤ ((2 ^ (M.log2 + 1) : ℕ) : ℚ) := by exact_mod_cast Nat.lt_log2_self
      calc
        V < (M + 1) * 2 ^ E := hupper
        _ ≤ ((2 ^ (M.log2 + 1) : ℕ) : ℚ) * 2 ^ E := mul_le_mul_of_nonneg_right hself hpos.le
        _ = 2 ^ ((M.log2 : ℤ) + 1 + E) := by
          rw [zpow_add₀ two_ne_zero]
          norm_cast
    have hbelow : (M.log2 : ℤ) + E < 53 + e :=
      (zpow_lt_zpow_iff_right₀ (one_lt_two : (1 : ℚ) < 2)).1 (hlow.trans_lt (hV.lt_of_lt hm.upper))
    by_cases hsmall : m < 2 ^ 52
    · have hnormal := hm.normal hsmall
      have : (M.log2 : ℤ) + E < 52 + e :=
        (zpow_lt_zpow_iff_right₀ (one_lt_two : (1 : ℚ) < 2)).1 (hlow.trans_lt (hV.lt_of_lt hsmall))
      omega
    · have habove : 51 + e < (M.log2 : ℤ) + 1 + E :=
        (zpow_lt_zpow_iff_right₀ (one_lt_two : (1 : ℚ) < 2)).1
          ((hV.lt_of_normal (by omega)).trans hhigh)
      by_cases hsame : (M.log2 : ℤ) + E = 52 + e
      · omega
      · have hexp : (M.log2 : ℤ) + 1 + E = 52 + e := by omega
        rw [hexp] at hhigh
        have hpower : m = 2 ^ 52 := by
          by_contra hne
          exact absurd (hV.le_of_normal (by omega)) (not_le.2 hhigh)
        by_cases hbottom : e = -1074
        · omega
        · exact .inr ⟨by omega, hpower, hhigh⟩

theorem Covers.nearest (hV : Covers m e V) : Nearest m (V / 2 ^ e) := by
  have hpos : (0 : ℚ) < 2 ^ e := by positivity
  have hgap := gap_le m
  have hlower : (m : ℚ) - gap m ≤ V / 2 ^ e := (le_div_iff₀ hpos).2 hV.lower
  refine ⟨by linarith, (div_le_iff₀ hpos).2 hV.upper, hV.tie.imp_right ?_⟩
  rintro ⟨hlow, hhigh⟩
  have hlow' : (m : ℚ) - gap m < V / 2 ^ e := (lt_div_iff₀ hpos).2 hlow
  exact ⟨by linarith, (div_lt_iff₀ hpos).2 hhigh⟩

/-- A value below a power of two is rounded on the finer grid of its own octave. -/
theorem Covers.nearest_below (hV : Covers (2 ^ 52) e V) (hless : V < 2 ^ (52 + e)) :
    Nearest (2 ^ 53) (V / 2 ^ (e - 1)) := by
  have hpos : (0 : ℚ) < 2 ^ (e - 1) := by positivity
  have hhalf : (2 : ℚ) ^ e = 2 * 2 ^ (e - 1) := by
    rw [← zpow_one_add₀ two_ne_zero]
    congr 1
    omega
  have hlower := hV.lower
  rw [gap, if_pos rfl, hhalf] at hlower
  rw [zpow_add₀ two_ne_zero, hhalf] at hless
  push_cast at hlower
  norm_num at hless hlower
  refine ⟨(le_div_iff₀ hpos).2 ?_, (div_le_iff₀ hpos).2 ?_, .inl rfl⟩
  · push_cast
    linarith
  · push_cast
    linarith

/-- Rounding shifts twice: what is given, and what that is rounded to. -/
theorem roundWithAccuracy_of_shifts {s : Sign} {M : ℕ} {E e₁ : ℤ} {acc : Accuracy}
    {em₁ : ExtendedMantissa} (em₂ : ExtendedMantissa) (h₁ : shiftToTargetExponent .binary64 M E acc = (em₁, e₁))
    (h₂ : shiftToTargetExponent .binary64 em₁.roundedMantissa e₁ .exact = (em₂, e))
    (hm : em₂.mantissa = m) (hpos : 0 < m) :
    roundWithAccuracy .binary64 s M E acc = .finite s m e hpos := by
  subst hm
  unfold roundWithAccuracy
  rw [h₁]
  dsimp only
  rw [h₂]
  exact dif_neg hpos.ne'

/-- Rounding what stands for a value gives the double that covers the value. -/
theorem roundWithAccuracy_eq (hm : Canonical m e) (hV : Covers m e V) (s : Sign) {M : ℕ} {E : ℤ}
    {acc : Accuracy} (h : StandsFor (.ofMantissaAndAccuracy M acc) (V / 2 ^ E))
    (hprecise : E ≤ -1074 ∨ 2 ^ 52 ≤ M) :
    roundWithAccuracy .binary64 s M E acc = .finite s m e hm.pos := by
  have hpos : (0 : ℚ) < 2 ^ E := by positivity
  have hmantissa : (ExtendedMantissa.ofMantissaAndAccuracy M acc).mantissa = M := by
    rcases acc with _ | (_ | _ | _) <;> rfl
  have hlower : (M : ℚ) * 2 ^ E ≤ V := by
    have := h.lower
    rwa [hmantissa, le_div_iff₀ hpos] at this
  have hupper : V < (M + 1) * 2 ^ E := by
    have := h.upper
    rwa [hmantissa, div_lt_iff₀ hpos] at this
  have hshift : ∀ t : ℤ, E ≤ t → StandsFor
      (ExtendedMantissa.ofMantissaAndAccuracy M acc >>> (t - E).toNat) (V / 2 ^ t) := by
    intro t ht
    have hn : (2 : ℚ) ^ t = 2 ^ E * 2 ^ (t - E).toNat := by
      rw [← zpow_natCast, ← zpow_add₀ two_ne_zero]
      congr 1
      omega
    rw [hn, ← div_div]
    exact h.shifted _
  have hreach : E ≤ max ((M.log2 : ℤ) + 1 + E - 53) (-1074) := by
    rcases hprecise with hE | hM
    · omega
    · have : 52 ≤ M.log2 := (Nat.le_log2 (by omega)).2 hM
      omega
  rcases hV.exponent_cases hm hlower hupper hprecise with hexp | ⟨hexp, rfl, hless⟩
  · rw [hexp] at hreach
    have hrounded := (hshift e hreach).rounded hV.nearest
    have hE : E + ((e - E).toNat : ℤ) = e := by omega
    refine roundWithAccuracy_of_shifts (.ofMantissaAndAccuracy m .exact)
      (shiftToTargetExponent_eq M E acc) ?_ rfl hm.pos
    rw [hexp, hE, hrounded, shiftToTargetExponent_eq, hm.exponent_eq, sub_self]
    exact Prod.ext rfl (add_zero e)
  · rw [hexp] at hreach
    have hrounded := (hshift (e - 1) hreach).rounded (hV.nearest_below hless)
    have hE : E + ((e - 1 - E).toNat : ℤ) = e - 1 := by omega
    have hleast := hm.least
    have hlog : Nat.log2 (2 ^ 53) = 53 := Nat.log2_two_pow
    have hmax : max (((Nat.log2 (2 ^ 53) : ℕ) : ℤ) + 1 + (e - 1) - 53) (-1074) = e := by omega
    refine roundWithAccuracy_of_shifts ⟨2 ^ 52, false, false⟩ (shiftToTargetExponent_eq M E acc) ?_ rfl
      hm.pos
    rw [hexp, hE, hrounded, shiftToTargetExponent_eq, hmax]
    have hone : (e - (e - 1)).toNat = 1 := by omega
    rw [hone]
    exact Prod.ext rfl (by simp)

/-! ### Products and quotients -/

theorem standsFor_exact (M : ℕ) : StandsFor (.ofMantissaAndAccuracy M .exact) M := by
  constructor
  · exact le_rfl
  · exact lt_add_one (M : ℚ)
  · simp [ExtendedMantissa.ofMantissaAndAccuracy]
  · simp [ExtendedMantissa.ofMantissaAndAccuracy]

theorem standsFor_fraction (n : ℕ) {d : ℕ} (hd : 0 < d) :
    StandsFor (.ofMantissaAndAccuracy (n / d) (accuracyOfFraction (n % d) d)) ((n : ℚ) / d) := by
  have hpos : (0 : ℚ) < d := by exact_mod_cast hd
  have hvalue : (n : ℚ) / d = ((n / d : ℕ) : ℚ) + ((n % d : ℕ) : ℚ) / d := by
    have hparts : (n : ℚ) = d * ((n / d : ℕ) : ℚ) + ((n % d : ℕ) : ℚ) := by
      exact_mod_cast (Nat.div_add_mod n d).symm
    rw [div_eq_iff hpos.ne', add_mul, div_mul_cancel₀ _ hpos.ne', mul_comm _ (d : ℚ)]
    exact hparts
  have hbelow : ((n % d : ℕ) : ℚ) / d < 1 := by
    rw [div_lt_one hpos]
    exact_mod_cast Nat.mod_lt n hd
  have hround : (1 : ℚ) / 2 ≤ ((n % d : ℕ) : ℚ) / d ↔ d ≤ 2 * (n % d) := by
    rw [div_le_div_iff₀ two_pos hpos, one_mul, mul_comm _ (2 : ℚ)]
    exact_mod_cast Iff.rfl
  have hhalf : ((n % d : ℕ) : ℚ) / d = 1 / 2 ↔ 2 * (n % d) = d := by
    rw [div_eq_div_iff hpos.ne' two_ne_zero, one_mul, mul_comm _ (2 : ℚ)]
    exact_mod_cast Iff.rfl
  have hzero : ((n % d : ℕ) : ℚ) / d = 0 ↔ n % d = 0 := by
    rw [div_eq_zero_iff, or_iff_left hpos.ne', Nat.cast_eq_zero]
  have hnonneg : (0 : ℚ) ≤ ((n % d : ℕ) : ℚ) / d := by positivity
  rw [hvalue]
  unfold accuracyOfFraction
  by_cases hexact : n % d = 0
  · rw [if_pos hexact, hzero.2 hexact, add_zero]
    exact standsFor_exact _
  rw [if_neg hexact]
  rcases lt_trichotomy (2 * (n % d)) d with hlt | heq | hgt
  · rw [compare_lt_iff_lt.2 hlt]
    constructor
    all_goals simp only [ExtendedMantissa.ofMantissaAndAccuracy]
    · linarith
    · linarith
    · have hless := not_le.1 (mt hround.1 (not_le.2 hlt))
      simp only [Bool.false_eq_true, false_iff, not_le]
      linarith
    · simp [hzero, hexact, -one_div, mt hhalf.1 hlt.ne]
  · rw [compare_eq_iff_eq.2 heq]
    constructor
    all_goals simp only [ExtendedMantissa.ofMantissaAndAccuracy]
    · linarith
    · linarith
    · have hmost := hround.2 heq.ge
      simp only [true_iff]
      linarith
    · simp [-one_div, hhalf.2 heq]
  · rw [compare_gt_iff_gt.2 hgt]
    constructor
    all_goals simp only [ExtendedMantissa.ofMantissaAndAccuracy]
    · linarith
    · linarith
    · have hmost := hround.2 hgt.le
      simp only [true_iff]
      linarith
    · simp [hzero, hexact, -one_div, mt hhalf.1 hgt.ne']

/-- A product of positive numbers is the double that covers it. -/
theorem mul_eq (hm : Canonical m e) {m₁ m₂ : ℕ} {e₁ e₂ : ℤ} (h₁ : 0 < m₁) (h₂ : 0 < m₂)
    (hV : Covers m e (m₁ * 2 ^ e₁ * (m₂ * 2 ^ e₂))) (hprecise : 2 ^ 52 ≤ m₁ * m₂) :
    mul .binary64 (.finite .positive m₁ e₁ h₁) (.finite .positive m₂ e₂ h₂) =
      .finite .positive m e hm.pos := by
  have hpos : (0 : ℚ) < 2 ^ (e₁ + e₂) := by positivity
  have hvalue : ((m₁ * m₂ : ℕ) : ℚ) = m₁ * 2 ^ e₁ * (m₂ * 2 ^ e₂) / 2 ^ (e₁ + e₂) := by
    rw [eq_div_iff hpos.ne', zpow_add₀ two_ne_zero]
    push_cast
    ring
  have hexact := standsFor_exact (m₁ * m₂)
  rw [hvalue] at hexact
  exact roundWithAccuracy_eq hm hV _ hexact (.inr hprecise)

/-- A quotient of positive numbers is the double that covers it. -/
theorem div_eq (hm : Canonical m e) {m₁ m₂ : ℕ} {e₁ e₂ : ℤ} (h₁ : 0 < m₁) (h₂ : 0 < m₂)
    (hV : Covers m e (m₁ * 2 ^ e₁ / (m₂ * 2 ^ e₂))) :
    div .binary64 (.finite .positive m₁ e₁ h₁) (.finite .positive m₂ e₂ h₂) =
      .finite .positive m e hm.pos := by
  obtain ⟨t, ht⟩ : ∃ t, t = min (e₁ - e₂)
      (max (((m₁.log2 : ℤ) + 1 + e₁) - ((m₂.log2 : ℤ) + 1 + e₂) - 53) (-1074)) := ⟨_, rfl⟩
  have hdiv : div .binary64 (.finite .positive m₁ e₁ h₁) (.finite .positive m₂ e₂ h₂) =
      roundWithAccuracy .binary64 .positive ((m₁ <<< (e₁ - e₂ - t).toNat) / m₂) t
        (accuracyOfFraction ((m₁ <<< (e₁ - e₂ - t).toNat) % m₂) m₂) := by
    rw [ht]
    rfl
  rw [hdiv, Nat.shiftLeft_eq]
  obtain ⟨n, hn⟩ : ∃ n : ℕ, (n : ℤ) = e₁ - e₂ - t := ⟨(e₁ - e₂ - t).toNat, by omega⟩
  rw [← hn, Int.toNat_natCast]
  have hpos₂ : (0 : ℚ) < m₂ := by exact_mod_cast h₂
  have hvalue : ((m₁ * 2 ^ n : ℕ) : ℚ) / m₂ = m₁ * 2 ^ e₁ / (m₂ * 2 ^ e₂) / 2 ^ t := by
    have he : (2 : ℚ) ^ e₁ = 2 ^ n * 2 ^ e₂ * 2 ^ t := by
      rw [← zpow_natCast, ← zpow_add₀ two_ne_zero, ← zpow_add₀ two_ne_zero]
      congr 1
      omega
    rw [he]
    push_cast
    field_simp
  have hfraction := standsFor_fraction (m₁ * 2 ^ n) h₂
  rw [hvalue] at hfraction
  refine roundWithAccuracy_eq hm hV _ hfraction ?_
  -- the quotient has all the digits that count, or its last digit is the last one of the smallest double
  by_cases hsmall : t ≤ -1074
  · exact .inl hsmall
  · refine .inr ((Nat.le_div_iff_mul_le h₂).2 ?_)
    have hlog : (m₂.log2 : ℤ) + 53 ≤ m₁.log2 + n := by omega
    calc
      2 ^ 52 * m₂ ≤ 2 ^ 52 * 2 ^ (m₂.log2 + 1) := Nat.mul_le_mul_left _ Nat.lt_log2_self.le
      _ = 2 ^ (m₂.log2 + 53) := by
        rw [← pow_add]
        congr 1
        omega
      _ ≤ 2 ^ (m₁.log2 + n) := Nat.pow_le_pow_right two_pos (by omega)
      _ = 2 ^ m₁.log2 * 2 ^ n := pow_add 2 _ _
      _ ≤ m₁ * 2 ^ n := Nat.mul_le_mul_right _ (Nat.log2_self_le h₁.ne')

end Barrage.Rounding
