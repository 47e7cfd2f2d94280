import Barrage.Number.Decimal
import Barrage.Proofs.Number.Scientific
import Mathlib.Data.Nat.Cast.Order.Field

/-!
# Shortest digits

The fewest digits that are found for a double stand for a number that the double covers, so reading them
gives the double back. Some digits are always found: among the numerals of seventeen digits the one nearest
to a double is nearer to it than any other double is.

## Main results

* `Decimal.toFloat_eq` — a numeral is read as the double that covers it
* `Decimal.covers_shortest` — the fewest digits of a double stand for a number that it covers
-/

namespace Barrage

open Rounding

namespace Decimal

variable {m : ℕ} {e : ℤ}

/-- The number that a numeral stands for. -/
def value (d : Decimal) : ℚ := d.digits * 10 ^ d.exponent

theorem lt_pow_width {n : ℕ} (h : 0 < n) : n < 10 ^ width n := by
  rw [width, if_neg h.ne']
  exact (Nat.length_toDigits_le_iff (by norm_num) Nat.length_toDigits_pos).1 le_rfl

theorem pow_width_le {n : ℕ} (h : 0 < n) : 10 ^ (width n - 1) ≤ n := by
  rw [width, if_neg h.ne']
  by_contra hlt
  have hpos : 0 < (Nat.toDigits 10 n).length := Nat.length_toDigits_pos
  rcases Nat.eq_zero_or_pos ((Nat.toDigits 10 n).length - 1) with hone | hmore
  · rw [hone, pow_zero] at hlt
    omega
  · have := (Nat.length_toDigits_le_iff (by norm_num) hmore).2 (not_le.1 hlt)
    omega

theorem width_pos {n : ℕ} (h : 0 < n) : 0 < width n := by
  rw [width, if_neg h.ne']
  exact Nat.length_toDigits_pos

theorem digits_pos (hm : Canonical m e) {d : Decimal} (hV : Covers m e d.value) : 0 < d.digits := by
  by_contra hzero
  have hvalue : d.value = 0 := by
    have : d.digits = 0 := by omega
    simp [value, this]
  have hleast := hV.least_le hm
  rw [hvalue] at hleast
  have : (0 : ℚ) < 2 ^ (-1075 : ℤ) := by positivity
  linarith

/-- A numeral is at least the power of ten of its first digit. -/
theorem pow_le_value {d : Decimal} (h : 0 < d.digits) :
    (10 : ℚ) ^ (d.exponent + width d.digits - 1) ≤ d.value := by
  have hwidth := width_pos h
  have hpow : ((10 ^ (width d.digits - 1) : ℕ) : ℚ) ≤ d.digits := by exact_mod_cast pow_width_le h
  calc
    (10 : ℚ) ^ (d.exponent + width d.digits - 1) =
        ((10 ^ (width d.digits - 1) : ℕ) : ℚ) * 10 ^ d.exponent := by
      push_cast
      rw [← zpow_natCast, ← zpow_add₀ (by norm_num)]
      congr 1
      omega
    _ ≤ d.value := mul_le_mul_of_nonneg_right hpow (by positivity)

theorem value_lt_pow {d : Decimal} (h : 0 < d.digits) :
    d.value < (10 : ℚ) ^ (d.exponent + width d.digits) := by
  have hpow : (d.digits : ℚ) < ((10 ^ width d.digits : ℕ) : ℚ) := by exact_mod_cast lt_pow_width h
  calc
    d.value < ((10 ^ width d.digits : ℕ) : ℚ) * 10 ^ d.exponent :=
      mul_lt_mul_of_pos_right hpow (by positivity)
    _ = 10 ^ (d.exponent + width d.digits) := by
      push_cast
      rw [← zpow_natCast, ← zpow_add₀ (by norm_num), add_comm]

theorem two_pow_greatest : (2 : ℚ) ^ (1024 : ℤ) ≤ 10 ^ (309 : ℤ) := by
  have h : 2 ^ 1024 ≤ 10 ^ 309 := by decide +kernel
  exact_mod_cast h

theorem two_pow_least : (10 : ℚ) ^ (-330 : ℤ) ≤ 2 ^ (-1075 : ℤ) := by
  have h : 2 ^ 1075 ≤ 10 ^ 330 := by decide +kernel
  have h' : (2 : ℚ) ^ (1075 : ℤ) ≤ 10 ^ (330 : ℤ) := by exact_mod_cast h
  rw [zpow_neg, zpow_neg]
  exact inv_anti₀ (by positivity) h'

/-- A numeral is read as the double that covers it. -/
theorem toFloat_eq (hm : Canonical m e) (he : e ≤ 971) {d : Decimal} (hV : Covers m e d.value) :
    d.toFloat = double m e hm.pos := by
  have hd := digits_pos hm hV
  have hten : (1 : ℚ) < 10 := by norm_num
  have htop : d.exponent + width d.digits - 1 < 309 :=
    (zpow_lt_zpow_iff_right₀ hten).1
      ((pow_le_value hd).trans_lt ((hV.lt_greatest hm he).trans_le two_pow_greatest))
  have hbottom : -330 < d.exponent + width d.digits :=
    (zpow_lt_zpow_iff_right₀ hten).1
      ((two_pow_least.trans (hV.least_le hm)).trans_lt (value_lt_pow hd))
  unfold toFloat
  simp only
  rw [if_neg hd.ne', if_neg (by omega), if_neg (by omega)]
  unfold value at hV
  split
  · rename_i hup
    obtain ⟨k, hk⟩ := Int.eq_ofNat_of_zero_le hup
    rw [hk, zpow_natCast] at hV
    rw [hk, Int.toNat_natCast]
    exact ofScientific_up hm he hd hV
  · rename_i hdown
    obtain ⟨k, hk⟩ := Int.eq_ofNat_of_zero_le (show 0 ≤ -d.exponent by omega)
    have hexp : d.exponent = -(k : ℤ) := by omega
    rw [hexp, zpow_neg, zpow_natCast, ← div_eq_mul_inv] at hV
    rw [hk, Int.toNat_natCast]
    exact ofScientific_down hm he hd hV

/-! ### The fewest digits -/

theorem value_normalize (digits : ℕ) (exponent : ℤ) :
    (normalize digits exponent).value = digits * 10 ^ exponent := by
  fun_induction normalize digits exponent with
  | case1 digits exponent h ih =>
    have hdigits : (digits : ℚ) = 10 * ((digits / 10 : ℕ) : ℚ) := by
      have : digits = 10 * (digits / 10) := by omega
      exact_mod_cast this
    rw [ih, hdigits, zpow_add_one₀ (by norm_num)]
    ring
  | case2 => rfl

/-- The power of ten below a fraction. -/
theorem pow_le_of_magnitude {num den : ℕ} (hnum : 0 < num) (hden : 0 < den) :
    (10 : ℚ) ^ (magnitude num den - 1) ≤ num / den := by
  have hnum' : (0 : ℚ) < num := by exact_mod_cast hnum
  have hden' : (0 : ℚ) < den := by exact_mod_cast hden
  unfold magnitude
  split
  · rename_i hle
    have hquotient : 0 < num / den := Nat.div_pos hle hden
    have hwidth := width_pos hquotient
    calc
      (10 : ℚ) ^ ((width (num / den) : ℤ) - 1) = ((10 ^ (width (num / den) - 1) : ℕ) : ℚ) := by
        push_cast
        rw [← zpow_natCast]
        congr 1
        omega
      _ ≤ ((num / den : ℕ) : ℚ) := by exact_mod_cast pow_width_le hquotient
      _ ≤ num / den := Nat.cast_div_le
  · rename_i hlt
    -- the denominator is at most the power of ten above the next whole quotient
    have hceil : den ≤ ((den + num - 1) / num) * num := by
      have := Nat.div_add_mod (den + num - 1) num
      have := Nat.mod_lt (den + num - 1) hnum
      have : num * ((den + num - 1) / num) = (den + num - 1) / num * num := Nat.mul_comm _ _
      omega
    obtain ⟨c, hc⟩ : ∃ c, c = (den + num - 1) / num - 1 := ⟨_, rfl⟩
    rw [← hc]
    have hpow : (den + num - 1) / num ≤ 10 ^ width c := by
      rcases Nat.eq_zero_or_pos c with hzero | hpos
      · have : 1 ≤ 10 ^ width c := Nat.one_le_pow _ _ (by norm_num)
        omega
      · have := lt_pow_width hpos
        omega
    have hbound : (den : ℚ) ≤ 10 ^ width c * num := by
      have : den ≤ 10 ^ width c * num := hceil.trans (Nat.mul_le_mul_right _ hpow)
      exact_mod_cast this
    have hexp : (1 : ℤ) - width c - 1 = -(width c : ℤ) := by omega
    rw [hexp, zpow_neg, zpow_natCast, le_div_iff₀ hden', inv_mul_le_iff₀ (by positivity)]
    exact hbound

/-! ### Rounding intervals -/

/-- The value, the reach below and the reach above an interval, as numbers in some unit. -/
structure Interval.Reaches (i : Interval) (low value high : ℚ) : Prop where
  den : 0 < i.den
  low : (i.low : ℚ) = low * i.den
  value : (i.value : ℚ) = value * i.den
  high : (i.high : ℚ) = high * i.den

theorem Interval.reaches_ofBinary (hpos : 0 < m) :
    (Interval.ofBinary m e).Reaches ((m - gap m) * 2 ^ e) (m * 2 ^ e) ((m + 1 / 2) * 2 ^ e) := by
  have hscale : (2 : ℚ) ^ (e - 2).toNat = 2 ^ (e - 2) * 2 ^ (2 - e).toNat := by
    rw [← zpow_natCast, ← zpow_natCast, ← zpow_add₀ two_ne_zero]
    congr 1
    omega
  have hquarter : (2 : ℚ) ^ (e - 2) = 2 ^ e / 4 := by
    rw [zpow_sub₀ two_ne_zero]
    norm_num
  have hgap : ((4 * m - if m = Nat.pow 2 52 then 1 else 2 : ℕ) : ℚ) = 4 * (m - gap m) := by
    rw [gap, Nat.cast_sub (by split <;> omega)]
    change ((4 * m : ℕ) : ℚ) - ((if m = 2 ^ 52 then 1 else 2 : ℕ) : ℚ) = _
    split
    · push_cast
      norm_num
      ring
    · push_cast
      ring
  unfold Interval.ofBinary
  constructor
  all_goals simp only [Nat.pow_eq]
  · positivity
  · rw [Nat.cast_mul, hgap]
    push_cast
    rw [hscale, hquarter]
    ring
  · push_cast
    rw [hscale, hquarter]
    ring
  · push_cast
    rw [hscale, hquarter]
    ring

theorem Interval.Reaches.inUnits {i : Interval} {low value high : ℚ} (h : i.Reaches low value high) (u : ℤ) :
    (i.inUnits u).Reaches (low / 10 ^ u) (value / 10 ^ u) (high / 10 ^ u) := by
  have hunit : (10 : ℚ) ^ (-u).toNat = 10 ^ u.toNat / 10 ^ u := by
    rw [eq_div_iff (by positivity), ← zpow_natCast, ← zpow_natCast, ← zpow_add₀ (by norm_num)]
    congr 1
    omega
  have hden := h.den
  constructor
  all_goals simp only [Interval.inUnits, Nat.pow_eq]
  · positivity
  · push_cast
    rw [h.low, hunit]
    ring
  · push_cast
    rw [h.value, hunit]
    ring
  · push_cast
    rw [h.high, hunit]
    ring

/-- A whole number of units lies in an interval. -/
theorem Interval.Reaches.contains_iff {i : Interval} {low value high : ℚ} (h : i.Reaches low value high)
    (n : ℕ) : i.contains (n * i.den) = true ↔
      if i.closed then low ≤ n ∧ n ≤ high else low < n ∧ n < high := by
  have hden : (0 : ℚ) < i.den := by exact_mod_cast h.den
  have hlow : i.low ≤ n * i.den ↔ low ≤ n := by
    rw [← Nat.cast_le (α := ℚ), h.low, Nat.cast_mul, mul_le_mul_iff_left₀ hden]
  have hhigh : n * i.den ≤ i.high ↔ n ≤ high := by
    rw [← Nat.cast_le (α := ℚ), h.high, Nat.cast_mul, mul_le_mul_iff_left₀ hden]
  have hlow' : i.low < n * i.den ↔ low < n := by
    rw [← Nat.cast_lt (α := ℚ), h.low, Nat.cast_mul, mul_lt_mul_iff_left₀ hden]
  have hhigh' : n * i.den < i.high ↔ n < high := by
    rw [← Nat.cast_lt (α := ℚ), h.high, Nat.cast_mul, mul_lt_mul_iff_left₀ hden]
  unfold Interval.contains
  cases i.closed
  · simp [hlow', hhigh']
  · simp [hlow, hhigh]

theorem Interval.contains_of_gridPoint? {i : Interval} {n : ℕ} (h : i.gridPoint? = some n) :
    i.contains (n * i.den) = true := by
  unfold Interval.gridPoint? at h
  simp only at h
  split at h
  · rename_i hbelow habove
    split at h <;> cases h <;> assumption
  · cases h
    assumption
  · cases h
    assumption
  · cases h

/-- An interval that reaches more than half a unit to either side holds a whole number of units. -/
theorem Interval.Reaches.isSome_gridPoint? {i : Interval} {low value high : ℚ}
    (h : i.Reaches low value high) (hlow : low < value - 1 / 2) (hhigh : value + 1 / 2 < high) :
    i.gridPoint?.isSome = true := by
  have hden : (0 : ℚ) < i.den := by exact_mod_cast h.den
  have hbelow : ((i.value / i.den : ℕ) : ℚ) ≤ value := by
    have : ((i.value / i.den * i.den : ℕ) : ℚ) ≤ i.value := by
      exact_mod_cast Nat.div_mul_le_self i.value i.den
    rw [h.value, Nat.cast_mul] at this
    exact le_of_mul_le_mul_right this hden
  have habove : value < ((i.value / i.den + 1 : ℕ) : ℚ) := by
    have : (i.value : ℚ) < ((i.value / i.den + 1) * i.den : ℕ) := by
      exact_mod_cast Nat.lt_mul_of_div_lt (Nat.lt_succ_self _) h.den
    rw [h.value, Nat.cast_mul] at this
    exact lt_of_mul_lt_mul_right this hden.le
  have hinside : ∀ n : ℕ, low < n → (n : ℚ) < high → i.contains (n * i.den) = true := by
    intro n hn hn'
    rw [h.contains_iff]
    split
    · exact ⟨hn.le, hn'.le⟩
    · exact ⟨hn, hn'⟩
  unfold Interval.gridPoint?
  simp only
  by_cases hnear : value - 1 / 2 ≤ ((i.value / i.den : ℕ) : ℚ)
  · rw [hinside (i.value / i.den) (by linarith) (by linarith)]
    split <;> simp_all
  · push_cast at habove
    rw [hinside (i.value / i.den + 1) (by push_cast; linarith) (by push_cast; linarith)]
    split <;> simp_all

/-- Seventeen digits are enough for every double. -/
theorem isSome_gridPoint?_most (hm : Canonical m e) {u : ℤ}
    (hu : (10 : ℚ) ^ (u + 16) ≤ m * 2 ^ e) :
    (((Interval.ofBinary m e).inUnits u).gridPoint?).isSome = true := by
  have hunit : (0 : ℚ) < 10 ^ u := by positivity
  have hpow : (0 : ℚ) < 2 ^ e := by positivity
  have hdigits : (10 : ℚ) ^ 16 * 10 ^ u ≤ m * 2 ^ e := by
    rw [zpow_add₀ (by norm_num)] at hu
    calc
      (10 : ℚ) ^ 16 * 10 ^ u = 10 ^ u * 10 ^ (16 : ℤ) := by
        rw [mul_comm]
        norm_cast
      _ ≤ m * 2 ^ e := hu
  -- a unit is less than the distance to the next double, which is at least the least mantissa's share
  have hupper : (m : ℚ) < 2 ^ 53 := by exact_mod_cast hm.upper
  have hhalf : (10 : ℚ) ^ u < 2 ^ e := by
    have : (10 : ℚ) ^ 16 * 10 ^ u < 2 ^ 53 * 2 ^ e :=
      hdigits.trans_lt (mul_lt_mul_of_pos_right hupper hpow)
    norm_num at this
    nlinarith
  have hgap : 1 / 2 * (10 : ℚ) ^ u < gap m * 2 ^ e := by
    unfold gap
    split
    · rename_i hpower
      rw [hpower] at hdigits
      push_cast at hdigits
      norm_num at hdigits ⊢
      nlinarith
    · linarith
  refine ((Interval.reaches_ofBinary hm.pos).inUnits u).isSome_gridPoint? ?_ ?_
  · rw [div_lt_iff₀ hunit, sub_mul ((m : ℚ) * 2 ^ e / 10 ^ u), div_mul_cancel₀ _ hunit.ne']
    linarith
  · rw [lt_div_iff₀ hunit, add_mul, div_mul_cancel₀ _ hunit.ne']
    linarith

/-- A grid point of the interval stands for a number that is read as the double. -/
theorem covers_of_gridPoint? (hpos : 0 < m) {u : ℤ} {n : ℕ}
    (h : ((Interval.ofBinary m e).inUnits u).gridPoint? = some n) : Covers m e (n * 10 ^ u) := by
  have hunit : (0 : ℚ) < 10 ^ u := by positivity
  have hreaches := (Interval.reaches_ofBinary (e := e) hpos).inUnits u
  have hcontains := (hreaches.contains_iff n).1 (Interval.contains_of_gridPoint? h)
  have hclosed : ((Interval.ofBinary m e).inUnits u).closed = (m % 2 == 0) := rfl
  rw [hclosed] at hcontains
  split at hcontains
  · rename_i heven
    obtain ⟨hlow, hhigh⟩ := hcontains
    exact ⟨(div_le_iff₀ hunit).1 hlow, (le_div_iff₀ hunit).1 hhigh, .inl (by simpa using heven)⟩
  · obtain ⟨hlow, hhigh⟩ := hcontains
    have hlow' := (div_lt_iff₀ hunit).1 hlow
    have hhigh' := (lt_div_iff₀ hunit).1 hhigh
    exact ⟨hlow'.le, hhigh'.le, .inr ⟨hlow', hhigh'⟩⟩

/-- The fewest digits stand for a number that is read as the double. -/
theorem covers_shortest (hm : Canonical m e) : Covers m e (shortest m e).value := by
  have hreaches := Interval.reaches_ofBinary (e := e) hm.pos
  have hden : (0 : ℚ) < (Interval.ofBinary m e).den := by exact_mod_cast hreaches.den
  have hmantissa : (0 : ℚ) < m := by exact_mod_cast hm.pos
  have hvalue : 0 < (Interval.ofBinary m e).value := by
    have : (0 : ℚ) < (Interval.ofBinary m e).value := by
      rw [hreaches.value]
      positivity
    exact_mod_cast this
  have hmagnitude := pow_le_of_magnitude hvalue hreaches.den
  rw [hreaches.value, mul_div_assoc, div_self hden.ne', mul_one] at hmagnitude
  obtain ⟨top, htop⟩ : ∃ top, top = magnitude (Interval.ofBinary m e).value (Interval.ofBinary m e).den :=
    ⟨_, rfl⟩
  rw [← htop] at hmagnitude
  have hmost := isSome_gridPoint?_most hm (u := top - 17) (by
    have : top - 17 + 16 = top - 1 := by omega
    rw [this]
    exact hmagnitude)
  unfold shortest
  simp only [← htop]
  cases hfound : (List.range mostDigits).findSome? fun (n : ℕ) =>
      (((Interval.ofBinary m e).inUnits (top - ((n : ℤ) + 1))).gridPoint?.map
        fun digits => normalize digits (top - ((n : ℤ) + 1))) with
  | none =>
    rw [List.findSome?_eq_none_iff] at hfound
    have hlast := hfound 16 (by simp [mostDigits])
    rw [Option.map_eq_none_iff] at hlast
    have hunit : top - (((16 : ℕ) : ℤ) + 1) = top - 17 := by omega
    rw [hunit] at hlast
    rw [hlast] at hmost
    cases hmost
  | some d =>
    obtain ⟨n, _, hn⟩ := List.exists_of_findSome?_eq_some hfound
    obtain ⟨digits, hdigits, rfl⟩ := Option.map_eq_some_iff.1 hn
    rw [Option.getD_some, value_normalize]
    exact covers_of_gridPoint? hm.pos hdigits

/-- The fewest digits of a double are read as the double. -/
theorem toFloat_shortest (hm : Canonical m e) (he : e ≤ 971) : (shortest m e).toFloat = double m e hm.pos :=
  toFloat_eq hm he (covers_shortest hm)

end Decimal

end Barrage
