import Barrage.Proofs.Number.Packing

/-!
# Decimal numerals as doubles

A numeral with a power of ten is turned into the double that covers its exact value. Small digits and small
powers of ten are doubles themselves, and one product or quotient of them is enough; all others take one
product or quotient of longer numbers. Either way only one rounding takes place.

## Main definitions

* `Rounding.double` — the double with a mantissa and an exponent

## Main results

* `Rounding.ofScientific_up`, `Rounding.ofScientific_down` — a numeral is the double that covers its value
-/

namespace Barrage.Rounding

open Float.Model Float.Model.UnpackedFloat

variable {m : ℕ} {e : ℤ} {V : ℚ}

/-- The double with a mantissa and an exponent. -/
def double (m : ℕ) (e : ℤ) (hpos : 0 < m) : Float :=
  Float.ofModel (Float.Model.pack (.finite .positive m e hpos))

theorem covers_self (m : ℕ) (e : ℤ) : Covers m e (m * 2 ^ e) := by
  have hpos : (0 : ℚ) < 2 ^ e := by positivity
  have hgap : 0 < gap m := by
    unfold gap
    split <;> norm_num
  have hlow : (m - gap m) * 2 ^ e < m * 2 ^ e := mul_lt_mul_of_pos_right (by linarith) hpos
  have hhigh : (m : ℚ) * 2 ^ e < (m + 1 / 2) * 2 ^ e := mul_lt_mul_of_pos_right (by linarith) hpos
  exact ⟨hlow.le, hhigh.le, .inr ⟨hlow, hhigh⟩⟩

theorem unpack_double (hm : Canonical m e) (he : e ≤ 971) :
    (double m e hm.pos).toModel.unpack = .finite .positive m e hm.pos :=
  unpack_pack hm he

theorem eq_double {x : Float} (h : Binary.ofFloat x = .finite false m e) (hpos : 0 < m) :
    x = double m e hpos :=
  (eq_ofModel_of_ofFloat h hpos).2.2

theorem unpack_of_ofFloat {x : Float} (h : Binary.ofFloat x = .finite false m e) (hpos : 0 < m) :
    x.toModel.unpack = .finite .positive m e hpos := by
  obtain ⟨hm, he, -⟩ := eq_ofModel_of_ofFloat h hpos
  rw [eq_double h hpos, unpack_double hm he]

/-- Whether a double is a power of ten, with a mantissa of full length. -/
def isPowerOfTen (x : Float) (k : ℕ) : Bool :=
  match Binary.ofFloat x with
  | .finite false p q => p * 2 ^ q.toNat == 10 ^ k * 2 ^ (-q).toNat && 2 ^ 52 ≤ p
  | _ => false

theorem isPowerOfTen_get : ∀ (k : ℕ) (hk : k < Float.exactlyRepresentablePowersOfTen.size),
    isPowerOfTen Float.exactlyRepresentablePowersOfTen[k] k = true := by
  decide +kernel

theorem exists_of_isPowerOfTen {x : Float} {k : ℕ} (h : isPowerOfTen x k = true) :
    ∃ (p : ℕ) (q : ℤ), Binary.ofFloat x = .finite false p q ∧ (p : ℚ) * 2 ^ q = 10 ^ k ∧ 2 ^ 52 ≤ p := by
  unfold isPowerOfTen at h
  split at h
  · rename_i p q hx
    simp only [Bool.and_eq_true, beq_iff_eq, decide_eq_true_eq] at h
    refine ⟨p, q, hx, ?_, h.2⟩
    have hq : (2 : ℚ) ^ q = 2 ^ q.toNat / 2 ^ (-q).toNat := by
      rw [eq_div_iff (by positivity), ← zpow_natCast, ← zpow_natCast, ← zpow_add₀ two_ne_zero]
      congr 1
      omega
    rw [hq, mul_div_assoc', div_eq_iff (by positivity)]
    exact_mod_cast h.1
  · cases h

/-! ### Whole numbers -/

section Whole

variable {d : ℕ} (hpos : 0 < d) (hd : d < 2 ^ 53)
include hpos hd

theorem le_whole : 2 ^ 52 ≤ d * 2 ^ (52 - d.log2) := by
  have hlog : d.log2 < 53 := (Nat.log2_lt hpos.ne').2 hd
  calc
    2 ^ 52 = 2 ^ d.log2 * 2 ^ (52 - d.log2) := by
      rw [← pow_add]
      congr 1
      omega
    _ ≤ d * 2 ^ (52 - d.log2) := Nat.mul_le_mul_right _ (Nat.log2_self_le hpos.ne')

theorem whole_lt : d * 2 ^ (52 - d.log2) < 2 ^ 53 := by
  have hlog : d.log2 < 53 := (Nat.log2_lt hpos.ne').2 hd
  calc
    d * 2 ^ (52 - d.log2) < 2 ^ (d.log2 + 1) * 2 ^ (52 - d.log2) :=
      Nat.mul_lt_mul_of_pos_right Nat.lt_log2_self (by positivity)
    _ = 2 ^ 53 := by
      rw [← pow_add]
      congr 1
      omega

theorem canonical_whole : Canonical (d * 2 ^ (52 - d.log2)) ((d.log2 : ℤ) - 52) := by
  have hlow := le_whole hpos hd
  exact ⟨by omega, whole_lt hpos hd, by omega, fun h => by omega⟩

theorem exponent_whole : (d.log2 : ℤ) - 52 ≤ 971 := by
  have hlog : d.log2 < 53 := (Nat.log2_lt hpos.ne').2 hd
  omega

theorem value_whole :
    ((d * 2 ^ (52 - d.log2) : ℕ) : ℚ) * 2 ^ ((d.log2 : ℤ) - 52) = d := by
  have hlog : d.log2 < 53 := (Nat.log2_lt hpos.ne').2 hd
  have hzero : ((52 - d.log2 : ℕ) : ℤ) + ((d.log2 : ℤ) - 52) = 0 := by omega
  push_cast
  rw [mul_assoc, ← zpow_natCast, ← zpow_add₀ two_ne_zero, hzero, zpow_zero, mul_one]

theorem round_whole : UnpackedFloat.round .binary64 .positive d 0 =
    .finite .positive (d * 2 ^ (52 - d.log2)) ((d.log2 : ℤ) - 52) (canonical_whole hpos hd).pos := by
  have hlog : d.log2 < 53 := (Nat.log2_lt hpos.ne').2 hd
  have htarget : Format.binary64.targetExponent (totalExponent d 0) = (d.log2 : ℤ) - 52 := by
    rw [targetExponent_eq]
    unfold totalExponent
    omega
  have hshift : ((0 : ℤ) - ((d.log2 : ℤ) - 52)).toNat = 52 - d.log2 := by omega
  have hexp : (0 : ℤ) - ((52 - d.log2 : ℕ) : ℤ) = (d.log2 : ℤ) - 52 := by omega
  have hm := canonical_whole hpos hd
  unfold UnpackedFloat.round decreaseExponent
  rw [htarget]
  dsimp only
  rw [hshift, hexp, Nat.shiftLeft_eq]
  refine roundWithAccuracy_eq hm (covers_self _ _) _ ?_ (.inr (le_whole hpos hd))
  rw [mul_div_assoc, div_self (by positivity), mul_one]
  exact standsFor_exact _

/-- A small whole number is converted to the double that holds it. -/
theorem toFloat_whole :
    d.toUInt64.toFloat = double (d * 2 ^ (52 - d.log2)) ((d.log2 : ℤ) - 52) (canonical_whole hpos hd).pos := by
  have hnat : d.toUInt64.toNat = d := by
    rw [Nat.toUInt64, UInt64.toNat_ofNat']
    omega
  have hcompare : compare (d : ℤ) 0 = .gt := compare_gt_iff_gt.2 (by omega)
  change Float.ofModel (Float.Model.pack
    (UnpackedFloat.normalize .binary64 (d.toUInt64.toNat : ℤ) 0 .positive)) = _
  rw [hnat]
  unfold UnpackedFloat.normalize
  simp only [hcompare, Int.toNat_natCast]
  rw [round_whole hpos hd]
  rfl

end Whole

/-! ### Decimal numerals -/

section Operands

variable {x y : Float} {m₁ m₂ : ℕ} {e₁ e₂ : ℤ} {h₁ : 0 < m₁} {h₂ : 0 < m₂}

theorem mul_double (hm : Canonical m e) (hx : x.toModel.unpack = .finite .positive m₁ e₁ h₁)
    (hy : y.toModel.unpack = .finite .positive m₂ e₂ h₂)
    (hV : Covers m e (m₁ * 2 ^ e₁ * (m₂ * 2 ^ e₂))) (hprecise : 2 ^ 52 ≤ m₁ * m₂) :
    x * y = double m e hm.pos := by
  change Float.ofModel (Float.Model.pack
    (UnpackedFloat.mul .binary64 x.toModel.unpack y.toModel.unpack)) = _
  rw [hx, hy, mul_eq hm h₁ h₂ hV hprecise]
  rfl

theorem div_double (hm : Canonical m e) (hx : x.toModel.unpack = .finite .positive m₁ e₁ h₁)
    (hy : y.toModel.unpack = .finite .positive m₂ e₂ h₂)
    (hV : Covers m e (m₁ * 2 ^ e₁ / (m₂ * 2 ^ e₂))) : x / y = double m e hm.pos := by
  change Float.ofModel (Float.Model.pack
    (UnpackedFloat.div .binary64 x.toModel.unpack y.toModel.unpack)) = _
  rw [hx, hy, div_eq hm h₁ h₂ hV]
  rfl

end Operands

section Scientific

variable {d k : ℕ}

theorem Covers.lt_greatest (hm : Canonical m e) (he : e ≤ 971) (hV : Covers m e V) : V < 2 ^ (1024 : ℤ) :=
  calc
    V < 2 ^ ((53 : ℕ) + e) := hV.lt_of_lt hm.upper
    _ ≤ 2 ^ (1024 : ℤ) := (zpow_le_zpow_iff_right₀ (one_lt_two : (1 : ℚ) < 2)).2 (by omega)

theorem Covers.least_le (hm : Canonical m e) (hV : Covers m e V) : (2 : ℚ) ^ (-1075 : ℤ) ≤ V := by
  have hpos : (0 : ℚ) < 2 ^ e := by positivity
  have hgap := gap_le m
  have hone : (1 : ℚ) ≤ m := by exact_mod_cast hm.pos
  have hleast := hm.least
  calc
    (2 : ℚ) ^ (-1075 : ℤ) ≤ 2 ^ (e - 1) :=
      (zpow_le_zpow_iff_right₀ (one_lt_two : (1 : ℚ) < 2)).2 (by omega)
    _ = 1 / 2 * 2 ^ e := by
      rw [zpow_sub_one₀ two_ne_zero]
      ring
    _ ≤ (m - gap m) * 2 ^ e := mul_le_mul_of_nonneg_right (by linarith) hpos.le
    _ ≤ V := hV.lower

/-- Powers of ten within the range of doubles have small exponents. -/
theorem exponent_le (hm : Canonical m e) (he : e ≤ 971) (hd : 0 < d) (hV : Covers m e (d * 10 ^ k)) :
    k < 1024 := by
  have hgreatest := hV.lt_greatest hm he
  have hd : (1 : ℚ) ≤ d := by exact_mod_cast hd
  have hpow : (2 : ℚ) ^ (k : ℤ) < 2 ^ (1024 : ℤ) :=
    calc
      (2 : ℚ) ^ (k : ℤ) = 2 ^ k := zpow_natCast 2 k
      _ ≤ 10 ^ k := pow_le_pow_left₀ (by norm_num) (by norm_num) k
      _ ≤ d * 10 ^ k := le_mul_of_one_le_left (by positivity) hd
      _ < 2 ^ (1024 : ℤ) := hgreatest
  have hexp := (zpow_lt_zpow_iff_right₀ (one_lt_two : (1 : ℚ) < 2)).1 hpow
  omega

theorem le_exponent (hm : Canonical m e) (hV : Covers m e (d / 10 ^ k)) : k < d.log2 + 1076 := by
  have hleast := hV.least_le hm
  have hpow : (2 : ℚ) ^ (-1075 : ℤ) < 2 ^ (((d.log2 + 1 : ℕ) : ℤ) - k) :=
    calc
      (2 : ℚ) ^ (-1075 : ℤ) ≤ d / 10 ^ k := hleast
      _ < 2 ^ (d.log2 + 1) / 10 ^ k := by
        apply div_lt_div_of_pos_right _ (by positivity)
        exact_mod_cast Nat.lt_log2_self
      _ ≤ 2 ^ (d.log2 + 1) / 2 ^ k := by
        apply div_le_div_of_nonneg_left (by positivity) (by positivity)
        exact pow_le_pow_left₀ (by norm_num) (by norm_num) k
      _ = 2 ^ (((d.log2 + 1 : ℕ) : ℤ) - k) := by rw [zpow_sub₀ two_ne_zero, zpow_natCast, zpow_natCast]
  have hexp := (zpow_lt_zpow_iff_right₀ (one_lt_two : (1 : ℚ) < 2)).1 hpow
  omega

theorem ofScientific_of_nonneg (hm : Canonical m e) (he : e ≤ 971) (hd : 0 < d)
    (hV : Covers m e (d * 10 ^ k)) :
    UnpackedFloat.ofScientific .binary64 d (k : ℤ) = .finite .positive m e hm.pos := by
  have hk := exponent_le hm he hd hV
  have hlong : 2 ^ 52 ≤ d <<< 53 * 10 ^ ((k : ℤ)).toNat := by
    rw [Nat.shiftLeft_eq, Int.toNat_natCast]
    calc
      2 ^ 52 ≤ 1 * 2 ^ 53 := by norm_num
      _ ≤ d * 2 ^ 53 := Nat.mul_le_mul_right _ hd
      _ ≤ d * 2 ^ 53 * 10 ^ k := Nat.le_mul_of_pos_right _ (by positivity)
  have hvalue : ((d <<< 53 : ℕ) : ℚ) * 2 ^ (-53 : ℤ) * ((10 ^ ((k : ℤ)).toNat : ℕ) * 2 ^ (0 : ℤ)) =
      d * 10 ^ k := by
    rw [Nat.shiftLeft_eq, Int.toNat_natCast]
    push_cast
    norm_num
    ring
  unfold UnpackedFloat.ofScientific
  rw [dif_neg hd.ne', if_neg (by norm_num; omega), if_neg (by norm_num; omega), if_pos (by omega)]
  exact mul_eq hm _ _ (hvalue.symm ▸ hV) hlong

theorem ofScientific_up (hm : Canonical m e) (he : e ≤ 971) (hd : 0 < d) (hV : Covers m e (d * 10 ^ k)) :
    Float.ofScientific d false k = double m e hm.pos := by
  unfold Float.ofScientific
  split
  · rename_i hfast
    obtain ⟨p, q, hp, hvalue, hlow⟩ :=
      exists_of_isPowerOfTen (isPowerOfTen_get k (Nat.lt_succ_of_le hfast.2))
    have hppos : 0 < p := by omega
    have hwhole := unpack_double (canonical_whole hd hfast.1) (exponent_whole hd hfast.1)
    have hpower := unpack_of_ofFloat hp hppos
    simp only [Bool.false_eq_true, if_false]
    rw [toFloat_whole hd hfast.1]
    refine mul_double hm hwhole hpower ?_ ((le_whole hd hfast.1).trans (Nat.le_mul_of_pos_right _ hppos))
    rw [value_whole hd hfast.1, hvalue]
    exact hV
  · change Float.ofModel (Float.Model.pack (UnpackedFloat.ofScientific .binary64 d (k : ℤ))) = _
    rw [ofScientific_of_nonneg hm he hd hV]
    rfl

theorem ofScientific_of_neg (hm : Canonical m e) (hd : 0 < d) (hk : 0 < k)
    (hV : Covers m e (d / 10 ^ k)) :
    UnpackedFloat.ofScientific .binary64 d (-(k : ℤ)) = .finite .positive m e hm.pos := by
  have hless := le_exponent hm hV
  have hvalue : (d : ℚ) * 2 ^ (0 : ℤ) / ((10 ^ (-(-(k : ℤ))).toNat : ℕ) * 2 ^ (0 : ℤ)) = d / 10 ^ k := by
    rw [neg_neg, Int.toNat_natCast]
    push_cast
    norm_num
  unfold UnpackedFloat.ofScientific
  rw [dif_neg hd.ne', if_neg (by norm_num), if_neg (by norm_num; omega), if_neg (by omega)]
  exact div_eq hm _ _ (hvalue.symm ▸ hV)

theorem ofScientific_down (hm : Canonical m e) (he : e ≤ 971) (hd : 0 < d)
    (hV : Covers m e (d / 10 ^ k)) : Float.ofScientific d true k = double m e hm.pos := by
  unfold Float.ofScientific
  split
  · rename_i hfast
    obtain ⟨p, q, hp, hvalue, hlow⟩ :=
      exists_of_isPowerOfTen (isPowerOfTen_get k (Nat.lt_succ_of_le hfast.2))
    have hppos : 0 < p := by omega
    have hwhole := unpack_double (canonical_whole hd hfast.1) (exponent_whole hd hfast.1)
    have hpower := unpack_of_ofFloat hp hppos
    simp only [if_true]
    rw [toFloat_whole hd hfast.1]
    refine div_double hm hwhole hpower ?_
    rw [value_whole hd hfast.1, hvalue]
    exact hV
  · rcases Nat.eq_zero_or_pos k with rfl | hk
    · rw [pow_zero, div_one] at hV
      change Float.ofModel (Float.Model.pack (UnpackedFloat.ofScientific .binary64 d ((0 : ℕ) : ℤ))) = _
      rw [ofScientific_of_nonneg hm he hd (by simpa using hV)]
      rfl
    · have hneg : Int.negOfNat k = -(k : ℤ) := by
        cases k <;> rfl
      change Float.ofModel (Float.Model.pack (UnpackedFloat.ofScientific .binary64 d (Int.negOfNat k))) = _
      rw [hneg, ofScientific_of_neg hm hd hk hV]
      rfl

end Scientific

end Barrage.Rounding
