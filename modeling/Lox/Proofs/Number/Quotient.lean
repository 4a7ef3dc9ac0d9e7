import Mathlib
import Lox.Proofs.Number.Parts

/-! The double that a decimal is read as. A quotient of exact numbers is rounded once, so a decimal
that is nearest to a magnitude is read as that magnitude, on the fast way and on the slow one. -/
namespace Lox.Number

open Float.Model (UnpackedFloat Format totalExponent)
open Float.Model.UnpackedFloat (Sign Accuracy roundWithAccuracy divCore)
open Magnitude (targetExponent_eq roundWithAccuracy_eq)

variable {x : Magnitude}

/-! Quotients. -/

/-- Division lowers the exponent of the dividend until the whole part of the quotient fills the
mantissa, or the exponent is the smallest one. -/
private theorem le_targetExponent_div {m₁ m₂ : ℕ} {e₁ e₂ t : ℤ} (h₁ : 0 < m₁) (h₂ : 0 < m₂)
    (ht : t = min (e₁ - e₂)
      (Format.binary64.targetExponent (totalExponent m₁ e₁ - totalExponent m₂ e₂))) :
    t ≤ Format.binary64.targetExponent
      (totalExponent (m₁ * 2 ^ (e₁ - e₂ - t).toNat / m₂) t) := by
  rw [targetExponent_eq] at ht ⊢
  by_cases hsmall : t ≤ -1074
  · omega
  have hshift : m₂.log2 + 53 ≤ m₁.log2 + (e₁ - e₂ - t).toNat := by
    simp only [totalExponent] at ht
    omega
  have hfull : 2 ^ 52 ≤ m₁ * 2 ^ (e₁ - e₂ - t).toNat / m₂ := by
    rw [Nat.le_div_iff_mul_le h₂]
    calc 2 ^ 52 * m₂ ≤ 2 ^ 52 * 2 ^ (m₂.log2 + 1) := Nat.mul_le_mul_left _ Nat.lt_log2_self.le
      _ = 2 ^ (m₂.log2 + 53) := by ring
      _ ≤ 2 ^ (m₁.log2 + (e₁ - e₂ - t).toNat) := Nat.pow_le_pow_right two_pos hshift
      _ = 2 ^ m₁.log2 * 2 ^ (e₁ - e₂ - t).toNat := pow_add _ _ _
      _ ≤ m₁ * 2 ^ (e₁ - e₂ - t).toNat :=
        Nat.mul_le_mul_right _ (Nat.log2_self_le h₁.ne')
  have hlog : 52 ≤ (m₁ * 2 ^ (e₁ - e₂ - t).toNat / m₂).log2 :=
    (Nat.le_log2 (by omega)).2 hfull
  rw [totalExponent]
  omega

theorem div_finite (hx : x.Canonical) (hpos : 0 < x.mantissa) {m₁ m₂ : ℕ} {e₁ e₂ : ℤ} (h₁ : 0 < m₁)
    (h₂ : 0 < m₂) (hn : x.Nearest (m₁ * 2 ^ e₁ / (m₂ * 2 ^ e₂))) (s₁ s₂ : Sign) :
    UnpackedFloat.div .binary64 (.finite s₁ m₁ e₁ h₁) (.finite s₂ m₂ e₂ h₂) =
      .finite (s₁ / s₂) x.mantissa x.scale hpos := by
  generalize ht : min (e₁ - e₂)
    (Format.binary64.targetExponent (totalExponent m₁ e₁ - totalExponent m₂ e₂)) = t
  have hcore : divCore .binary64 m₁ e₁ m₂ e₂ = (m₁ * 2 ^ (e₁ - e₂ - t).toNat / m₂, t,
      Float.Model.UnpackedFloat.accuracyOfFraction (m₁ * 2 ^ (e₁ - e₂ - t).toNat % m₂) m₂) := by
    rw [divCore, ht, Nat.shiftLeft_eq]
  have hvalue : ((m₁ * 2 ^ (e₁ - e₂ - t).toNat : ℕ) : ℚ) / m₂ * 2 ^ t =
      m₁ * 2 ^ e₁ / (m₂ * 2 ^ e₂) := by
    have hpower : (2 : ℚ) ^ (e₁ - e₂ - t).toNat * 2 ^ t * 2 ^ e₂ = 2 ^ e₁ := by
      rw [← zpow_natCast, ← zpow_add₀ two_ne_zero, ← zpow_add₀ two_ne_zero]
      congr 1
      omega
    have hne : (m₂ : ℚ) ≠ 0 := by exact_mod_cast h₂.ne'
    rw [← hpower]
    push_cast
    field_simp
  rw [UnpackedFloat.div, hcore]
  exact roundWithAccuracy_eq hx hpos (.ofFraction _ h₂) (hvalue ▸ hn)
    (le_targetExponent_div h₁ h₂ ht.symm) _

/-! Integers that a mantissa holds. -/

/-- The magnitude of a natural number of at most 53 bits. -/
def Magnitude.ofNat (n : ℕ) : Magnitude :=
  ⟨n * 2 ^ (52 - n.log2), n.log2 - 52, n * 2 ^ (52 - n.log2) == 2 ^ 52⟩

section
variable {n : ℕ}

theorem Magnitude.canonical_ofNat (hpos : 0 < n) (hlt : n < 2 ^ 53) : (ofNat n).Canonical := by
  have hlog : n.log2 < 53 := (Nat.log2_lt hpos.ne').2 hlt
  have hlower : 2 ^ 52 ≤ n * 2 ^ (52 - n.log2) :=
    calc 2 ^ 52 = 2 ^ n.log2 * 2 ^ (52 - n.log2) := by
          rw [← pow_add]
          congr 1
          omega
      _ ≤ n * 2 ^ (52 - n.log2) := Nat.mul_le_mul_right _ (Nat.log2_self_le hpos.ne')
  have hupper : n * 2 ^ (52 - n.log2) < 2 ^ 53 :=
    calc n * 2 ^ (52 - n.log2) < 2 ^ (n.log2 + 1) * 2 ^ (52 - n.log2) :=
          Nat.mul_lt_mul_of_pos_right Nat.lt_log2_self (Nat.two_pow_pos _)
      _ = 2 ^ 53 := by
        rw [← pow_add]
        congr 1
        omega
  refine ⟨hupper, ?_, ?_, .inr hlower, ?_⟩
  · simp only [ofNat]
    omega
  · simp only [ofNat]
    omega
  · simp only [ofNat, beq_iff_eq]
    omega

theorem Magnitude.value_ofNat (hpos : 0 < n) (hlt : n < 2 ^ 53) : (ofNat n).value = n := by
  have hlog : n.log2 < 53 := (Nat.log2_lt hpos.ne').2 hlt
  have hpower : (2 : ℚ) ^ (52 - n.log2) * 2 ^ ((n.log2 : ℤ) - 52) = 1 := by
    rw [← zpow_natCast, ← zpow_add₀ two_ne_zero]
    convert zpow_zero (2 : ℚ) using 2
    omega
  simp only [value, ofNat]
  push_cast
  rw [mul_assoc, hpower, mul_one]

theorem Magnitude.ofNat_mantissa_pos (hpos : 0 < n) : 0 < (ofNat n).mantissa :=
  Nat.mul_pos hpos (Nat.two_pow_pos _)

/-- A natural number of at most 53 bits is a double. -/
theorem unpack_toFloat (hpos : 0 < n) (hlt : n < 2 ^ 53) :
    n.toUInt64.toFloat.toModel.unpack = .finite .positive (Magnitude.ofNat n).mantissa
      (Magnitude.ofNat n).scale (Magnitude.ofNat_mantissa_pos hpos) := by
  have hx := Magnitude.canonical_ofNat hpos hlt
  have hlog : n.log2 < 53 := (Nat.log2_lt hpos.ne').2 hlt
  have hword : n.toUInt64.toNat = n := by
    rw [Nat.toUInt64, UInt64.toNat_ofNat']
    omega
  have htarget :
      Format.binary64.targetExponent (totalExponent n 0) = (Magnitude.ofNat n).scale := by
    rw [targetExponent_eq, totalExponent, Magnitude.ofNat]
    simp only
    omega
  have hlower : UnpackedFloat.decreaseExponent n 0 (Magnitude.ofNat n).scale =
      ((Magnitude.ofNat n).mantissa, (Magnitude.ofNat n).scale) := by
    have hshift : (0 - (Magnitude.ofNat n).scale).toNat = 52 - n.log2 := by
      simp only [Magnitude.ofNat]
      omega
    rw [UnpackedFloat.decreaseExponent, hshift, Nat.shiftLeft_eq, Magnitude.ofNat]
    simp only [Prod.mk.injEq, true_and]
    omega
  have hround : Float.Model.UnpackedFloat.ofNat .binary64 n =
      .finite .positive (Magnitude.ofNat n).mantissa (Magnitude.ofNat n).scale
        (Magnitude.ofNat_mantissa_pos hpos) := by
    have hcompare : compare (n : ℤ) 0 = .gt := Int.compare_eq_gt.2 (by omega)
    rw [UnpackedFloat.ofNat, UnpackedFloat.ofInt, UnpackedFloat.normalize, hcompare]
    simp only [UnpackedFloat.round, Int.toNat_natCast, htarget, hlower]
    exact roundWithAccuracy_eq hx _ (.whole _) (Magnitude.nearest_value _)
      (hx.targetExponent_eq (Magnitude.ofNat_mantissa_pos hpos)).ge _
  have hmodel : n.toUInt64.toFloat.toModel = .pack (UnpackedFloat.ofNat .binary64 n) := by
    change Float.Model.pack (UnpackedFloat.ofNat .binary64 n.toUInt64.toNat) = _
    rw [hword]
  rw [hmodel, hround, unpack_pack hx]

end

/-! Decimals. -/

theorem Magnitude.value_of_whole? {n : ℕ} (h : x.whole? = some n) : x.value = n := by
  simp only [whole?, Nat.pow_eq] at h
  split at h
  next hmod =>
    cases h
    have hdiv := Nat.mul_div_cancel' (Nat.dvd_of_mod_eq_zero hmod)
    have hpower : (2 : ℚ) ^ (-x.scale).toNat * 2 ^ x.scale = 2 ^ x.scale.toNat := by
      rw [← zpow_natCast, ← zpow_natCast, ← zpow_add₀ two_ne_zero]
      congr 1
      omega
    calc x.value
      _ = (2 ^ (-x.scale).toNat * (x.mantissa / 2 ^ (-x.scale).toNat) : ℕ) * 2 ^ x.scale := by
        rw [hdiv, value]
      _ = (x.mantissa / 2 ^ (-x.scale).toNat : ℕ) *
          ((2 : ℚ) ^ (-x.scale).toNat * 2 ^ x.scale) := by
        push_cast
        ring
      _ = (x.mantissa / 2 ^ (-x.scale).toNat * 2 ^ x.scale.toNat : ℕ) := by
        rw [hpower]
        push_cast
        rfl
  next => cases h

theorem Magnitude.mantissa_pos_of_whole? {n : ℕ} (h : x.whole? = some n) (hpos : 0 < n) :
    0 < x.mantissa := by
  have hvalue := value_of_whole? h
  by_contra hnone
  rw [value, Nat.eq_zero_of_not_pos hnone, Nat.cast_zero, zero_mul] at hvalue
  exact hpos.ne (by exact_mod_cast hvalue)

theorem Magnitude.Nearest.two_zpow_le {v : ℚ} (h : x.Nearest v) (hpos : 0 < x.mantissa) :
    2 ^ (x.scale - 1) ≤ v := by
  have hmantissa : (1 : ℚ) ≤ x.mantissa := by exact_mod_cast hpos
  calc (2 : ℚ) ^ (x.scale - 1) = 1 / 2 * 2 ^ x.scale := by
        rw [zpow_sub_one₀ two_ne_zero]
        ring
    _ ≤ (x.mantissa - 1 / 2) * 2 ^ x.scale :=
        mul_le_mul_of_nonneg_right (by linarith) (by positivity)
    _ ≤ x.lower := x.le_lower
    _ ≤ v := h.lower_le

section
variable {n k : ℕ}

/-- Both numbers are doubles, and one division rounds. -/
theorem div_toModel (hx : x.Canonical) (hpos : 0 < x.mantissa) {f : Float} {d : ℕ}
    (hn : x.Nearest (n / d)) (hzero : 0 < n) (hlt : n < 2 ^ 53) (hnan : f.isNaN = false)
    (hinf : f.isInf = false) (hsign : isNegative f = false)
    (hwhole : (Magnitude.ofFloat f).whole? = some d) (hd : 0 < d) :
    (n.toUInt64.toFloat / f).toModel = .pack (.finite .positive x.mantissa x.scale hpos) := by
  have hvalue : ((Magnitude.ofFloat f).mantissa : ℚ) * 2 ^ (Magnitude.ofFloat f).scale = d :=
    Magnitude.value_of_whole? hwhole
  have hvalue' : ((Magnitude.ofNat n).mantissa : ℚ) * 2 ^ (Magnitude.ofNat n).scale = n :=
    Magnitude.value_ofNat hzero hlt
  have hmantissa := Magnitude.mantissa_pos_of_whole? hwhole hd
  have hpositive : signOf f = .positive := by
    rw [signOf, hsign]
    rfl
  have hmodel : (n.toUInt64.toFloat / f).toModel = .pack (UnpackedFloat.div .binary64
      n.toUInt64.toFloat.toModel.unpack f.toModel.unpack) := rfl
  rw [hmodel, unpack_toFloat hzero hlt, unpack_finite hnan hinf hmantissa, hpositive,
    div_finite hx hpos]
  · rfl
  · rwa [hvalue, hvalue']

/-- The powers of ten that the fast way divides by. -/
theorem powersOfTen_whole : ∀ k : Fin 23,
    let f := Float.exactlyRepresentablePowersOfTen[k]
    f.isNaN = false ∧ f.isInf = false ∧ isNegative f = false ∧
      (Magnitude.ofFloat f).whole? = some (10 ^ k.val) := by
  decide

theorem decimal_lt (n k : ℕ) : (n / 10 ^ k : ℚ) < 2 ^ ((n.log2 : ℤ) + 1 - k) := by
  have hlog : (n : ℚ) < 2 ^ (n.log2 + 1) := by exact_mod_cast Nat.lt_log2_self
  calc (n / 10 ^ k : ℚ) ≤ n / 2 ^ k := by gcongr; norm_num
    _ < 2 ^ (n.log2 + 1) / 2 ^ k := div_lt_div_of_pos_right hlog (by positivity)
    _ = 2 ^ ((n.log2 : ℤ) + 1 - k) := by
      rw [zpow_sub₀ two_ne_zero, zpow_natCast]
      exact_mod_cast rfl

/-- A number without a fraction is multiplied by one. -/
theorem mul_one_finite (hx : x.Canonical) (hpos : 0 < x.mantissa) (hn : x.Nearest n)
    (hlarge : 2 ^ 53 ≤ n) (h₁ : 0 < n <<< 53) (h₂ : 0 < 10 ^ 0) :
    UnpackedFloat.mul .binary64 (.finite .positive (n <<< 53) (-53) h₁)
      (.finite .positive (10 ^ 0) 0 h₂) = .finite .positive x.mantissa x.scale hpos := by
  have hvalue : ((n * 2 ^ 53 : ℕ) : ℚ) * 2 ^ (-53 : ℤ) = n := by
    push_cast
    rw [zpow_neg, mul_assoc]
    norm_num
  have hlog : 53 ≤ (n * 2 ^ 53).log2 := (Nat.le_log2 (by omega)).2 (by omega)
  have htarget : -53 ≤ Format.binary64.targetExponent (totalExponent (n * 2 ^ 53) (-53)) := by
    rw [targetExponent_eq, totalExponent]
    omega
  simp only [UnpackedFloat.mul, pow_zero, mul_one, add_zero, Nat.shiftLeft_eq]
  exact roundWithAccuracy_eq hx hpos (.whole _) (hvalue.symm ▸ hn) htarget .positive

/-- The slow way neither gives up on the decimal nor divides by anything but its power of ten. -/
theorem model_ofScientific (hx : x.Canonical) (hpos : 0 < x.mantissa)
    (hn : x.Nearest (n / 10 ^ k)) (hzero : 0 < n) (hslow : 2 ^ 53 ≤ n ∨ 0 < k) :
    UnpackedFloat.ofScientific .binary64 n (Int.negOfNat k) =
      .finite .positive x.mantissa x.scale hpos := by
  have hexponent : Int.negOfNat k = -(k : ℤ) := rfl
  have hlarge : ¬ Int.negOfNat k > 2 ^ 11 := by omega
  have htiny : ¬ Int.negOfNat k < -((2 ^ 11 : ℤ) + n.log2) := by
    have hle := (hn.two_zpow_le hpos).trans_lt (decimal_lt n k)
    have hge := hx.scale_ge
    rw [zpow_lt_zpow_iff_right₀ one_lt_two] at hle
    omega
  rw [UnpackedFloat.ofScientific, dif_neg hzero.ne']
  simp only [hlarge, htiny, if_false]
  split
  next hwhole =>
    obtain rfl : k = 0 := by omega
    rw [pow_zero, div_one] at hn
    exact mul_one_finite hx hpos hn (by omega) _ _
  next hfraction =>
    have hpower : (-Int.negOfNat k).toNat = k := by omega
    have hvalue : ((n : ℚ) * 2 ^ (0 : ℤ) / ((10 ^ k : ℕ) * 2 ^ (0 : ℤ))) = n / 10 ^ k := by
      push_cast
      rw [mul_one, mul_one]
    simp only [hpower]
    exact div_finite hx hpos hzero (by positivity) (hvalue ▸ hn) .positive .positive

/-- A decimal that is nearest to a magnitude is read as that magnitude. -/
theorem ofScientific_nearest (hx : x.Canonical) (hpos : 0 < x.mantissa)
    (hn : x.Nearest (n / 10 ^ k)) :
    (Float.ofScientific n true k).toModel = .pack (.finite .positive x.mantissa x.scale hpos) := by
  have hzero : 0 < n := by
    by_contra hnone
    have hle := hn.two_zpow_le hpos
    rw [Nat.eq_zero_of_not_pos hnone, Nat.cast_zero, zero_div] at hle
    exact (zpow_pos two_pos _).not_ge hle
  rw [Float.ofScientific]
  split
  next hfast =>
    obtain ⟨hnan, hinf, hsign, hwhole⟩ := powersOfTen_whole ⟨k, Nat.lt_succ_of_le hfast.2⟩
    rw [if_pos rfl]
    refine div_toModel hx hpos ?_ hzero hfast.1 hnan hinf hsign hwhole (by positivity)
    push_cast
    exact hn
  next hslow =>
    rw [if_pos rfl]
    exact congrArg Float.Model.pack (model_ofScientific hx hpos hn hzero (by omega))

/-! No decimal is read as NaN. -/

theorem isNaN_packComponents (s : Sign) {exponent : BitVec 11} (h : exponent ≠ -1#_)
    (mantissa : BitVec 52) :
    (UnpackedFloat.unpack .binary64 (UnpackedFloat.packComponents .binary64 s exponent
      mantissa)).isNaN = false := by
  rw [UnpackedFloat.unpack]
  simp only [UnpackedFloat.unpackExponent_packComponents, h, if_false]
  split
  · split <;> rfl
  · rfl

theorem isNaN_pack {a : UnpackedFloat} (h : a.isNaN = false) :
    (Float.ofModel (.pack a)).isNaN = false := by
  cases a with
  | notANumber => cases h
  | infinity s | zero s => cases s <;> rfl
  | finite s m e hm =>
    change (UnpackedFloat.unpack .binary64 (UnpackedFloat.pack .binary64 _)).isNaN = false
    rw [UnpackedFloat.pack]
    generalize (e + (Format.binary64.exponentBias : ℤ) +
      (Format.binary64.mantissaBitsWithoutImplicit : ℤ)).toNat = biased
    simp only
    split
    next => cases s <;> rfl
    next hroom =>
      have hroom : ¬ 2048 ≤ biased + 1 := hroom
      split
      next =>
        refine isNaN_packComponents s ?_ _
        rw [ne_eq, ← BitVec.toNat_inj, BitVec.toNat_ofNat]
        change ¬ biased % 2048 = 2047
        omega
      next => exact isNaN_packComponents s (by decide) _

theorem isNaN_roundWithAccuracy (s : Sign) (m : ℕ) (e : ℤ) (acc : Accuracy) :
    (roundWithAccuracy .binary64 s m e acc).isNaN = false := by
  unfold roundWithAccuracy
  simp only
  split
  · rfl
  · rfl

theorem isNaN_div {a : UnpackedFloat} (h : a.isNaN = false) (s : Sign) (m : ℕ) (e : ℤ)
    (hm : 0 < m) : (UnpackedFloat.div .binary64 a (.finite s m e hm)).isNaN = false := by
  cases a with
  | notANumber => cases h
  | infinity | zero => rfl
  | finite => exact isNaN_roundWithAccuracy _ _ _ _

/-- Only a divisor of zero makes NaN of a natural number. -/
theorem isNaN_toFloat_div (n : UInt64) {f : Float} (hnan : f.isNaN = false)
    (hinf : f.isInf = false) (hpos : 0 < (Magnitude.ofFloat f).mantissa) :
    (n.toFloat / f).isNaN = false := by
  have hdividend : n.toFloat.isNaN = false := by
    refine isNaN_pack ?_
    rw [UnpackedFloat.ofUInt64, UnpackedFloat.ofNat, UnpackedFloat.ofInt, UnpackedFloat.normalize]
    split
    · exact isNaN_roundWithAccuracy _ _ _ _
    · rfl
    · exact isNaN_roundWithAccuracy _ _ _ _
  refine isNaN_pack ?_
  rw [unpack_finite hnan hinf hpos]
  exact isNaN_div hdividend _ _ _ _

theorem isNaN_ofScientific (n k : ℕ) : (Float.ofScientific n true k).isNaN = false := by
  rw [Float.ofScientific]
  split
  next hfast =>
    obtain ⟨hnan, hinf, -, hwhole⟩ := powersOfTen_whole ⟨k, Nat.lt_succ_of_le hfast.2⟩
    rw [if_pos rfl]
    exact isNaN_toFloat_div _ hnan hinf
      (Magnitude.mantissa_pos_of_whole? hwhole (Nat.pow_pos (by decide)))
  next hslow =>
    rw [if_pos rfl]
    refine isNaN_pack ?_
    fun_cases UnpackedFloat.ofScientific
    · rfl
    · rfl
    · rfl
    · exact isNaN_roundWithAccuracy _ _ _ _
    · exact isNaN_div rfl _ _ _ _

end

end Lox.Number
