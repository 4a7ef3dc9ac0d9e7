import Mathlib
import Lox.Number.Layout
import Lox.Proofs.Number.Rounding

/-! A finite double and its parts: the sign and the magnitude that its bits give are the ones that
arithmetic unpacks, and a canonical magnitude survives packing. -/
namespace Lox.Number

open Float.Model (UnpackedFloat Format totalExponent)
open Float.Model.UnpackedFloat

/-- The sign of the double, also of zeros. -/
def signOf (x : Float) : Sign := if isNegative x then .negative else .positive

/-- The biased exponent. -/
def exponentField (x : Float) : ℕ := (x.toBits >>> 52).toNat % 2048

/-- The bits below the exponent. -/
def mantissaField (x : Float) : ℕ := x.toBits.toNat % 2 ^ 52

section
variable (x : Float)

private theorem toNat_unpackMantissa :
    (@unpackMantissa .binary64 x.toBits.toBitVec).toNat = mantissaField x := by
  rw [unpackMantissa_def, BitVec.extractLsb'_toNat, Nat.shiftRight_zero]
  rfl

private theorem toNat_unpackExponent :
    (@unpackExponent .binary64 x.toBits.toBitVec).toNat = exponentField x := by
  rw [unpackExponent_def, BitVec.extractLsb'_toNat, exponentField, UInt64.toNat_shiftRight]
  rfl

private theorem unpackExponent_eq_iff (k : BitVec 11) :
    @unpackExponent .binary64 x.toBits.toBitVec = k ↔ exponentField x = k.toNat := by
  rw [← BitVec.toNat_inj, toNat_unpackExponent]

private theorem ofBitVec_unpackSign :
    Sign.ofBitVec (@unpackSign .binary64 x.toBits.toBitVec) = signOf x := by
  have hlt := x.toBits.toNat_lt
  have hbit : (@unpackSign .binary64 x.toBits.toBitVec).toNat =
      x.toBits.toNat / 2 ^ 63 := by
    rw [unpackSign_def, BitVec.extractLsb'_toNat, Nat.shiftRight_eq_div_pow]
    change x.toBits.toNat / 2 ^ 63 % 2 = _
    omega
  have hzero : @unpackSign .binary64 x.toBits.toBitVec = 0#1 ↔
      ¬ x.toBits.toNat / 2 ^ 63 = 1 := by
    rw [← BitVec.toNat_inj, hbit, BitVec.toNat_ofNat]
    omega
  rw [Sign.ofBitVec, signOf, isNegative]
  simp only [hzero, decide_eq_true_eq, ite_not]
  rfl

end

section
variable {x : Float}

theorem mantissaField_lt : mantissaField x < 2 ^ 52 := Nat.mod_lt _ (by decide)

theorem Magnitude.ofFloat_subnormal (h : exponentField x = 0) :
    ofFloat x = ⟨mantissaField x, -1074, false⟩ := if_pos h

theorem Magnitude.ofFloat_normal (h : exponentField x ≠ 0) :
    ofFloat x = ⟨2 ^ 52 + mantissaField x, exponentField x - 1075,
      mantissaField x == 0 && 1 < exponentField x⟩ := if_neg h

/-- The largest exponent is kept for the infinities and NaN. -/
theorem exponentField_lt (hnan : x.isNaN = false) (hinf : x.isInf = false) :
    exponentField x < 2047 := by
  have hlt : exponentField x < 2048 := Nat.mod_lt _ (by decide)
  have hne : exponentField x ≠ 2047 := by
    intro h
    have hones : @unpackExponent .binary64 x.toBits.toBitVec = -1#_ :=
      BitVec.toNat_inj.1 ((toNat_unpackExponent x).trans h)
    have hunpack : x.toModel.unpack.isNaN = true ∨ x.toModel.unpack.isInf = true := by
      change (UnpackedFloat.unpack .binary64 x.toBits.toBitVec).isNaN = true ∨
        (UnpackedFloat.unpack .binary64 x.toBits.toBitVec).isInf = true
      rw [UnpackedFloat.unpack]
      simp only [hones, if_true]
      split
      · exact .inr rfl
      · exact .inl rfl
    obtain hspecial | hspecial := hunpack
    · exact Bool.false_ne_true (hnan.symm.trans hspecial)
    · exact Bool.false_ne_true (hinf.symm.trans hspecial)
  omega

theorem Magnitude.canonical_ofFloat (hnan : x.isNaN = false) (hinf : x.isInf = false) :
    (ofFloat x).Canonical := by
  have hlt := exponentField_lt hnan hinf
  have hmantissa := mantissaField_lt (x := x)
  by_cases hsub : exponentField x = 0
  · rw [ofFloat_subnormal hsub]
    refine ⟨by simp only; omega, by simp only; omega, by simp only; omega, .inl rfl, ?_⟩
    simp only [Bool.false_eq_true, false_iff]
    omega
  · rw [ofFloat_normal hsub]
    refine ⟨by simp only; omega, by simp only; omega, by simp only; omega, .inr ?_, ?_⟩
    · exact Nat.le_add_right _ _
    · simp only [Bool.and_eq_true, beq_iff_eq, decide_eq_true_eq]
      omega

/-- What is unpacked below the largest exponent, where the mantissa of zero stands for zero. -/
private theorem unpack_eq (hlt : exponentField x < 2047) :
    x.toModel.unpack = if hpos : 0 < (Magnitude.ofFloat x).mantissa then
      .finite (signOf x) (Magnitude.ofFloat x).mantissa (Magnitude.ofFloat x).scale hpos
    else .zero (signOf x) := by
  have hordinary : @unpackExponent .binary64 x.toBits.toBitVec ≠ -1#_ := by
    rw [ne_eq, unpackExponent_eq_iff]
    exact hlt.ne
  have hunpack : x.toModel.unpack = UnpackedFloat.unpack .binary64 x.toBits.toBitVec := rfl
  rw [hunpack, UnpackedFloat.unpack]
  simp only [hordinary, if_false, ofBitVec_unpackSign, toNat_unpackMantissa, toNat_unpackExponent]
  by_cases hsub : exponentField x = 0
  · have hzero : @unpackExponent .binary64 x.toBits.toBitVec = 0#_ := by
      rw [unpackExponent_eq_iff]
      exact hsub
    have hmantissa : @unpackMantissa .binary64 x.toBits.toBitVec = 0#_ ↔
        mantissaField x = 0 := by
      rw [← BitVec.toNat_inj, toNat_unpackMantissa]
      rfl
    simp only [hzero, if_true, hmantissa, Magnitude.ofFloat_subnormal hsub, hsub,
      Nat.pos_iff_ne_zero, dite_not]
    split
    · rfl
    · rfl
  · have hzero : @unpackExponent .binary64 x.toBits.toBitVec ≠ 0#_ := by
      rw [ne_eq, unpackExponent_eq_iff]
      exact hsub
    have hmantissa : (1#1 ++ @unpackMantissa .binary64 x.toBits.toBitVec).toNat =
        2 ^ 52 + mantissaField x := by
      rw [BitVec.toNat_append, ← Nat.shiftLeft_add_eq_or_of_lt (BitVec.isLt _),
        toNat_unpackMantissa]
      rfl
    have hpos : 0 < 2 ^ 52 + mantissaField x := by omega
    simp only [hzero, if_false, hmantissa, Magnitude.ofFloat_normal hsub, hpos, dite_true]
    rfl

theorem unpack_zero (hnan : x.isNaN = false) (hinf : x.isInf = false)
    (h : (Magnitude.ofFloat x).mantissa = 0) : x.toModel.unpack = .zero (signOf x) := by
  rw [unpack_eq (exponentField_lt hnan hinf), dif_neg (by omega)]

theorem unpack_finite (hnan : x.isNaN = false) (hinf : x.isInf = false)
    (hpos : 0 < (Magnitude.ofFloat x).mantissa) : x.toModel.unpack =
      .finite (signOf x) (Magnitude.ofFloat x).mantissa (Magnitude.ofFloat x).scale hpos := by
  rw [unpack_eq (exponentField_lt hnan hinf), dif_pos hpos]

end

/-! Packing. -/

/-- A double is the packing of its parts. -/
theorem pack_unpack (x : Float) : Float.ofModel (.pack x.toModel.unpack) = x :=
  Float.ofBits_toBits x

section
variable {x : Magnitude}

/-- A full mantissa loses its leading bit and gets it back. -/
private theorem unpack_pack_normal (hx : x.Canonical) (hpos : 0 < x.mantissa) (s : Sign)
    (hfull : 2 ^ 52 ≤ x.mantissa) :
    UnpackedFloat.unpack .binary64 (UnpackedFloat.pack .binary64
      (.finite s x.mantissa x.scale hpos)) = .finite s x.mantissa x.scale hpos := by
  obtain ⟨hlt, hge, hle, -, -⟩ := hx
  have hlog : x.mantissa.log2 = 52 := (Nat.log2_eq_iff hpos.ne').2 ⟨hfull, hlt⟩
  generalize hbiased : (x.scale + (1023 : ℕ) + (52 : ℕ)).toNat = biased
  have hexponent : (BitVec.ofNat 11 biased).toNat = biased := by
    rw [BitVec.toNat_ofNat]
    omega
  have hmantissa : (1#1 ++ BitVec.ofNat 52 x.mantissa).toNat = x.mantissa := by
    rw [BitVec.toNat_append, ← Nat.shiftLeft_add_eq_or_of_lt (BitVec.isLt _), BitVec.toNat_ofNat]
    change 2 ^ 52 + x.mantissa % 2 ^ 52 = x.mantissa
    omega
  have hpack : UnpackedFloat.pack .binary64 (.finite s x.mantissa x.scale hpos) =
      packComponents .binary64 s (BitVec.ofNat 11 biased) (BitVec.ofNat 52 x.mantissa) := by
    have hroom : ¬ 2 ^ 11 ≤ biased + 1 := by omega
    rw [← hbiased] at hroom ⊢
    exact (if_neg hroom).trans (if_pos (congrArg (· + 1) hlog))
  have hones : BitVec.ofNat 11 biased ≠ -1#_ := by
    rw [ne_eq, ← BitVec.toNat_inj, hexponent]
    change ¬ biased = 2047
    omega
  have hzero : BitVec.ofNat 11 biased ≠ 0#_ := by
    rw [ne_eq, ← BitVec.toNat_inj, hexponent]
    change ¬ biased = 0
    omega
  rw [hpack, UnpackedFloat.unpack]
  simp only [unpackExponent_packComponents, unpackMantissa_packComponents,
    unpackSign_packComponents, Sign.ofBitVec_toBitVec, hones, hzero, if_false, hmantissa, hexponent]
  congr 1
  change (biased : ℤ) - (1023 + 52) = x.scale
  omega

private theorem unpack_pack_subnormal (hx : x.Canonical) (hpos : 0 < x.mantissa) (s : Sign)
    (hsmall : x.mantissa < 2 ^ 52) :
    UnpackedFloat.unpack .binary64 (UnpackedFloat.pack .binary64
      (.finite s x.mantissa x.scale hpos)) = .finite s x.mantissa x.scale hpos := by
  have hscale : x.scale = -1074 := hx.normal.resolve_right (by omega)
  have hlog : x.mantissa.log2 < 52 := (Nat.log2_lt hpos.ne').2 hsmall
  have hmantissa : (BitVec.ofNat 52 x.mantissa).toNat = x.mantissa := by
    rw [BitVec.toNat_ofNat]
    omega
  have hpack : UnpackedFloat.pack .binary64 (.finite s x.mantissa x.scale hpos) =
      packComponents .binary64 s 0#_ (BitVec.ofNat 52 x.mantissa) := by
    have hroom : ¬ 2 ^ 11 ≤ (x.scale + (1023 : ℕ) + (52 : ℕ)).toNat + 1 := by omega
    exact (if_neg hroom).trans (if_neg fun h => by
      have hfull : x.mantissa.log2 + 1 = 53 := h
      omega)
  have hne : BitVec.ofNat 52 x.mantissa ≠ 0#_ := by
    rw [ne_eq, ← BitVec.toNat_inj, hmantissa]
    exact hpos.ne'
  rw [hpack, UnpackedFloat.unpack]
  simp only [unpackExponent_packComponents, unpackMantissa_packComponents,
    unpackSign_packComponents, Sign.ofBitVec_toBitVec, hne, if_false, hmantissa]
  rw [hscale]
  rfl

theorem unpack_pack (hx : x.Canonical) (hpos : 0 < x.mantissa) (s : Sign) :
    (Float.Model.pack (.finite s x.mantissa x.scale hpos)).unpack =
      .finite s x.mantissa x.scale hpos := by
  by_cases hfull : 2 ^ 52 ≤ x.mantissa
  · exact unpack_pack_normal hx hpos s hfull
  · exact unpack_pack_subnormal hx hpos s (not_le.1 hfull)

end
end Lox.Number
