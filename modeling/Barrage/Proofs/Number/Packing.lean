import Barrage.Number.Binary
import Barrage.Proofs.Number.Rounding

/-!
# Bits of doubles

A finite double is its sign, its exponent and its mantissa, packed into the bits of a word. Packing them
loses nothing, and decoding a double as an exact fraction gives them back.

## Main results

* `Rounding.unpack_pack` — packing a finite number loses nothing
* `Rounding.eq_ofModel_of_ofFloat` — a double is what its decoded parts are packed into
* `Rounding.eq_toFloat_of_ofFloat_nan`, `Rounding.eq_toFloat_of_ofFloat_infinite` — the special doubles
-/

namespace Barrage.Rounding

open Float.Model Float.Model.UnpackedFloat

variable {s : Sign} {m : ℕ} {e : ℤ}

theorem toNat_packComponents (s : Sign) (b : BitVec 11) (f : BitVec 52) :
    (packComponents .binary64 s b f).toNat = (s.toBitVec.toNat * 2 ^ 11 + b.toNat) * 2 ^ 52 + f.toNat := by
  unfold packComponents
  rw [BitVec.toNat_append, BitVec.toNat_append, ← Nat.shiftLeft_add_eq_or_of_lt f.isLt,
    ← Nat.shiftLeft_add_eq_or_of_lt b.isLt, Nat.shiftLeft_eq, Nat.shiftLeft_eq]

/-- The sign, the exponent bits and the fraction of a double. -/
theorem pack_normal (hm : 2 ^ 52 ≤ m) (hm' : m < 2 ^ 53) (he : -1074 ≤ e) (he' : e ≤ 971) (hpos : 0 < m) :
    UnpackedFloat.pack .binary64 (.finite s m e hpos) =
      packComponents .binary64 s (BitVec.ofNat 11 (e + 1075).toNat) (BitVec.ofNat 52 m) := by
  have hlog : m.log2 = 52 := by
    have := (Nat.le_log2 hpos.ne').2 hm
    have := (Nat.log2_lt hpos.ne').2 hm'
    omega
  have hexp : (e + ((1023 : ℕ) : ℤ) + ((52 : ℕ) : ℤ)) = e + 1075 := by omega
  unfold UnpackedFloat.pack
  change (if 2 ^ 11 ≤ (e + ((1023 : ℕ) : ℤ) + ((52 : ℕ) : ℤ)).toNat + 1 then _ else
    if m.log2 + 1 = 53 then packComponents .binary64 s
      (BitVec.ofNat 11 (e + ((1023 : ℕ) : ℤ) + ((52 : ℕ) : ℤ)).toNat) (BitVec.ofNat 52 m) else _) = _
  rw [hexp, if_neg (by omega), if_pos (by omega)]

theorem pack_subnormal (hm : m < 2 ^ 52) (hpos : 0 < m) :
    UnpackedFloat.pack .binary64 (.finite s m (-1074) hpos) = packComponents .binary64 s 0#11 (BitVec.ofNat 52 m) := by
  have hlog : m.log2 < 52 := (Nat.log2_lt hpos.ne').2 hm
  unfold UnpackedFloat.pack
  change (if 2 ^ 11 ≤ (1 : ℕ) + 1 then _ else
    if m.log2 + 1 = 53 then _ else packComponents .binary64 s 0#11 (BitVec.ofNat 52 m)) = _
  rw [if_neg (by omega), if_neg (by omega)]

theorem ofBitVec_toBitVec (s : Sign) : Sign.ofBitVec s.toBitVec = s := by cases s <;> rfl

theorem unpackSign_packComponents (s : Sign) (b : BitVec 11) (f : BitVec 52) :
    unpackSign (packComponents .binary64 s b f) = s.toBitVec := by
  apply BitVec.eq_of_toNat_eq
  have hs := s.toBitVec.isLt
  have hb := b.isLt
  have hf := f.isLt
  unfold unpackSign
  rw [BitVec.toNat_cast, BitVec.extractLsb_toNat, toNat_packComponents, Nat.shiftRight_eq_div_pow]
  change ((s.toBitVec.toNat * 2 ^ 11 + b.toNat) * 2 ^ 52 + f.toNat) / 2 ^ 63 % 2 ^ 1 = s.toBitVec.toNat
  omega

/-- Unpacking the parts of a double whose exponent bits are neither all zero nor all one. -/
theorem unpack_packComponents_normal {b : BitVec 11} {f : BitVec 52} (hb : b ≠ 0#11) (hb' : b ≠ -1#11)
    (hpos : 0 < 2 ^ 52 + f.toNat) :
    UnpackedFloat.unpack .binary64 (packComponents .binary64 s b f) =
      .finite s (2 ^ 52 + f.toNat) ((b.toNat : ℤ) - 1075) hpos := by
  have himplicit : (1#1 ++ f).toNat = 2 ^ 52 + f.toNat := by
    rw [BitVec.toNat_append, ← Nat.shiftLeft_add_eq_or_of_lt f.isLt]
    rfl
  unfold UnpackedFloat.unpack
  dsimp only
  rw [if_neg (by rw [unpackExponent_packComponents]; exact hb'),
    if_neg (by rw [unpackExponent_packComponents]; exact hb)]
  congr 1
  · rw [unpackSign_packComponents, ofBitVec_toBitVec]
  · rw [unpackMantissa_packComponents]
    exact himplicit
  · rw [unpackExponent_packComponents]
    rfl

theorem unpack_packComponents_subnormal {f : BitVec 52} (hpos : 0 < f.toNat) :
    UnpackedFloat.unpack .binary64 (packComponents .binary64 s 0#11 f) = .finite s f.toNat (-1074) hpos := by
  have hf : f ≠ 0#52 := by
    rintro rfl
    simp at hpos
  unfold UnpackedFloat.unpack
  dsimp only
  rw [if_neg (by rw [unpackExponent_packComponents]; decide), if_pos unpackExponent_packComponents,
    dif_neg (by rw [unpackMantissa_packComponents]; exact hf)]
  congr 1
  · rw [unpackSign_packComponents, ofBitVec_toBitVec]
  · rw [unpackMantissa_packComponents]
  · rw [unpackExponent_packComponents]
    rfl

/-- Packing a finite number loses nothing. -/
theorem unpack_pack (hm : Canonical m e) (he : e ≤ 971) :
    UnpackedFloat.unpack .binary64 (UnpackedFloat.pack .binary64 (.finite s m e hm.pos)) =
      .finite s m e hm.pos := by
  have hupper := hm.upper
  have hleast := hm.least
  by_cases hsmall : m < 2 ^ 52
  · obtain rfl := hm.normal hsmall
    have hf : (BitVec.ofNat 52 m).toNat = m := by
      rw [BitVec.toNat_ofNat, Nat.mod_eq_of_lt hsmall]
    rw [pack_subnormal hsmall, unpack_packComponents_subnormal (by rw [hf]; exact hm.pos)]
    congr 1
  · have hf : (BitVec.ofNat 52 m).toNat = m - 2 ^ 52 := by
      rw [BitVec.toNat_ofNat]
      omega
    have hb : (BitVec.ofNat 11 (e + 1075).toNat).toNat = (e + 1075).toNat := by
      rw [BitVec.toNat_ofNat]
      omega
    have hb0 : BitVec.ofNat 11 (e + 1075).toNat ≠ 0#11 := by
      intro heq
      have := congrArg BitVec.toNat heq
      rw [hb] at this
      simp at this
      omega
    have hb1 : BitVec.ofNat 11 (e + 1075).toNat ≠ -1#11 := by
      intro heq
      have := congrArg BitVec.toNat heq
      rw [hb] at this
      simp at this
      omega
    rw [pack_normal (by omega) hupper hleast he, unpack_packComponents_normal hb0 hb1 (by omega)]
    congr 1
    · omega
    · omega

/-! ### Doubles -/

theorem eq_of_toBits {x y : Float} (h : x.toBits.toNat = y.toBits.toNat) : x = y := by
  obtain ⟨⟨bx, hx⟩⟩ := x
  obtain ⟨⟨byy, hy⟩⟩ := y
  have : bx = byy := UInt64.toNat_inj.1 h
  subst this
  rfl

/-- The sign of a number. -/
def signOf (negative : Bool) : Sign := if negative then .negative else .positive

theorem toNat_toBits_pack (u : UnpackedFloat) :
    (Float.ofModel (Float.Model.pack u)).toBits.toNat = (UnpackedFloat.pack .binary64 u).toNat := rfl

theorem toNat_signOf (negative : Bool) :
    (signOf negative).toBitVec.toNat = if negative then 1 else 0 := by
  cases negative <;> rfl

/-- A positive or negative number is the double that its parts are packed into. -/
theorem eq_ofModel_of_ofFloat {x : Float} {negative : Bool} (h : Binary.ofFloat x = .finite negative m e)
    (hpos : 0 < m) : Canonical m e ∧ e ≤ 971 ∧
      x = Float.ofModel (Float.Model.pack (.finite (signOf negative) m e hpos)) := by
  have hbits : x.toBits.toNat < 2 ^ 64 := x.toBits.toNat_lt
  unfold Binary.ofFloat at h
  simp only [Nat.pow_eq] at h
  split at h
  · split at h <;> cases h
  split at h
  · rename_i hbiased
    cases h
    have hsmall : x.toBits.toNat % 2 ^ 52 < 2 ^ 52 := Nat.mod_lt _ (by norm_num)
    refine ⟨⟨hpos, by omega, le_rfl, fun _ => rfl⟩, by norm_num [Binary.leastExponent], eq_of_toBits ?_⟩
    rw [toNat_toBits_pack]
    change _ = (UnpackedFloat.pack .binary64 (.finite _ _ (-1074) hpos)).toNat
    rw [pack_subnormal hsmall, toNat_packComponents, toNat_signOf, BitVec.toNat_ofNat]
    simp only [decide_eq_true_eq, BitVec.toNat_ofNat]
    split <;> omega
  · rename_i hspecial hbiased
    cases h
    have hfraction : x.toBits.toNat % 2 ^ 52 < 2 ^ 52 := Nat.mod_lt _ (by norm_num)
    have hexponent : x.toBits.toNat / 2 ^ 52 % 2 ^ 11 < 2 ^ 11 := Nat.mod_lt _ (by norm_num)
    refine ⟨⟨hpos, by omega, by omega, fun hlt => by omega⟩, by omega, eq_of_toBits ?_⟩
    rw [toNat_toBits_pack, pack_normal (by omega) (by omega) (by omega) (by omega),
      toNat_packComponents, toNat_signOf, BitVec.toNat_ofNat]
    simp only [decide_eq_true_eq, BitVec.toNat_ofNat]
    split <;> omega

/-- A zero is the double with its sign. -/
theorem eq_ofModel_of_ofFloat_zero {x : Float} {negative : Bool}
    (h : Binary.ofFloat x = .finite negative 0 e) :
    x = Float.ofModel (Float.Model.pack (.zero (signOf negative))) := by
  have hbits : x.toBits.toNat < 2 ^ 64 := x.toBits.toNat_lt
  unfold Binary.ofFloat at h
  simp only [Nat.pow_eq] at h
  split at h
  · split at h <;> cases h
  split at h
  · injection h with hnegative hfraction _
    have hzero : (Float.ofModel (Float.Model.pack (.zero (signOf negative)))).toBits.toNat =
        (packComponents .binary64 (signOf negative) 0#11 0#52).toNat := rfl
    refine eq_of_toBits ?_
    rw [hzero, toNat_packComponents, toNat_signOf, ← hnegative]
    simp only [decide_eq_true_eq, BitVec.toNat_ofNat]
    split <;> omega
  · injection h with _ hfraction _
    omega

/-! ### Signs -/

theorem neg_ofModel (u : UnpackedFloat) (h : UnpackedFloat.unpack .binary64 (UnpackedFloat.pack .binary64 u) = u) :
    -Float.ofModel (Float.Model.pack u) = Float.ofModel (Float.Model.pack u.neg) := by
  change Float.ofModel (Float.Model.pack
    (UnpackedFloat.unpack .binary64 (UnpackedFloat.pack .binary64 u)).neg) = _
  rw [h]

/-! ### Special doubles -/

/-- There is one NaN. -/
theorem eq_toFloat_of_ofFloat_nan {x : Float} (h : Binary.ofFloat x = .nan) :
    x = Binary.toFloat .nan := by
  have hbits : x.toBits.toNat < 2 ^ 64 := x.toBits.toNat_lt
  obtain ⟨hspecial, hfraction⟩ : x.toBits.toNat / 2 ^ 52 % 2 ^ 11 = 2047 ∧
      x.toBits.toNat % 2 ^ 52 ≠ 0 := by
    unfold Binary.ofFloat at h
    simp only [Nat.pow_eq] at h
    split at h
    · split at h
      · cases h
      · exact ⟨‹_›, ‹_›⟩
    · split at h <;> cases h
  obtain ⟨⟨bits, hvalid⟩⟩ := x
  change bits.toNat / 2 ^ 52 % 2 ^ 11 = 2047 at hspecial
  change bits.toNat % 2 ^ 52 ≠ 0 at hfraction
  have hexponent : @unpackExponent .binary64 bits.toBitVec = -1#11 := by
    apply BitVec.eq_of_toNat_eq
    unfold unpackExponent
    rw [BitVec.toNat_cast, BitVec.extractLsb_toNat, Nat.shiftRight_eq_div_pow]
    exact hspecial
  have hmantissa : @unpackMantissa .binary64 bits.toBitVec ≠ 0#52 := by
    intro hzero
    have := congrArg BitVec.toNat hzero
    unfold unpackMantissa at this
    rw [BitVec.toNat_cast, BitVec.extractLsb_toNat, Nat.shiftRight_eq_div_pow] at this
    exact hfraction (by simpa using this)
  have hbits := hvalid.eq_packedNaN hexponent hmantissa
  refine eq_of_toBits ?_
  change bits.toBitVec.toNat = _
  rw [hbits]
  decide +kernel

/-- Each infinity is one double. -/
theorem eq_toFloat_of_ofFloat_infinite {x : Float} {negative : Bool}
    (h : Binary.ofFloat x = .infinite negative) : x = Binary.toFloat (.infinite negative) := by
  have hbits : x.toBits.toNat < 2 ^ 64 := x.toBits.toNat_lt
  refine eq_of_toBits ?_
  unfold Binary.ofFloat at h
  simp only [Nat.pow_eq] at h
  split at h
  · split at h
    · rename_i hspecial hfraction
      cases h
      have hpos : (Binary.toFloat (.infinite false)).toBits.toNat = 0x7ff0000000000000 := by decide +kernel
      have hneg : (Binary.toFloat (.infinite true)).toBits.toNat = 0xfff0000000000000 := by decide +kernel
      by_cases hsign : 2 ^ 63 ≤ x.toBits.toNat
      · rw [decide_eq_true hsign, hneg]
        omega
      · rw [decide_eq_false hsign, hpos]
        omega
    · cases h
  · split at h <;> cases h

theorem neg_infinity : -Binary.toFloat (.infinite false) = Binary.toFloat (.infinite true) := by
  refine eq_of_toBits ?_
  decide +kernel

end Barrage.Rounding
