import Mathlib
import Lox.Number.Shortest

/-! Rounding an exact value to a double. A value between the half-way points around a double gives
that double, whatever mantissa and residual bits it is handed over with. -/
namespace Lox.Number

open Float.Model (Format totalExponent)
open Float.Model.UnpackedFloat

/-! Residual bits. -/

/-- The mantissa is the whole part of the value; the residual bits compare the rest with zero and
with one half. -/
inductive Represents : ExtendedMantissa → ℚ → Prop
  | whole (m : ℕ) : Represents ⟨m, false, false⟩ m
  | low {m : ℕ} {v : ℚ} : m < v → v < m + 1 / 2 → Represents ⟨m, false, true⟩ v
  | half (m : ℕ) : Represents ⟨m, true, false⟩ (m + 1 / 2)
  | high {m : ℕ} {v : ℚ} : m + 1 / 2 < v → v < m + 1 → Represents ⟨m, true, true⟩ v

namespace Represents

variable {em : ExtendedMantissa} {v : ℚ}

/-- The bit that is shifted out becomes the round bit, and the old round bit is lost in the
sticky one. -/
theorem shiftRightOne (h : Represents em v) : Represents em.shiftRightOne (v / 2) := by
  obtain ⟨m, round, sticky⟩ := em
  obtain ⟨k, rfl | rfl⟩ := m.even_or_odd'
  · have hhalf : 2 * k / 2 = k := by omega
    have hbit : (2 * k % 2 != 0) = false := by simp
    rw [ExtendedMantissa.shiftRightOne, hhalf, hbit]
    cases h with
    | whole =>
      have hvalue : ((2 * k : ℕ) : ℚ) / 2 = k := by
        push_cast
        ring
      rw [hvalue]
      exact whole k
    | low hl hu | high hl hu =>
      push_cast at hl hu
      exact low (by linarith) (by linarith)
    | half =>
      refine low ?_ ?_ <;> push_cast <;> linarith
  · have hhalf : (2 * k + 1) / 2 = k := by omega
    have hbit : ((2 * k + 1) % 2 != 0) = true := by simp
    rw [ExtendedMantissa.shiftRightOne, hhalf, hbit]
    cases h with
    | whole =>
      have hvalue : ((2 * k + 1 : ℕ) : ℚ) / 2 = k + 1 / 2 := by
        push_cast
        ring
      rw [hvalue]
      exact half k
    | low hl hu | high hl hu =>
      push_cast at hl hu
      exact high (by linarith) (by linarith)
    | half =>
      refine high ?_ ?_ <;> push_cast <;> linarith

theorem shiftRight (h : Represents em v) (n : ℕ) : Represents (em >>> n) (v / 2 ^ n) := by
  induction n with
  | zero =>
    rw [pow_zero, div_one]
    exact h
  | succ n ih =>
    rw [pow_succ, ← div_div]
    exact ih.shiftRightOne

/-- Nearest-even rounding: `m` comes out of everything within one half of it, and of the two ends
if it is even. -/
theorem roundedMantissa (h : Represents em v) {m : ℕ} (hlower : (m : ℚ) - 1 / 2 ≤ v)
    (hupper : v ≤ m + 1 / 2) (hodd : m % 2 = 1 → (m : ℚ) - 1 / 2 ≠ v ∧ v ≠ m + 1 / 2) :
    em.roundedMantissa = m := by
  cases h with
  | whole n =>
    have hbelow : n < m + 1 := by exact_mod_cast (by linarith : (n : ℚ) < m + 1)
    have habove : m < n + 1 := by exact_mod_cast (by linarith : (m : ℚ) < n + 1)
    change n = m
    omega
  | @low n _ hl hu =>
    have hbelow : n < m + 1 := by exact_mod_cast (by linarith : (n : ℚ) < m + 1)
    have habove : m < n + 1 := by exact_mod_cast (by linarith : (m : ℚ) < n + 1)
    change n = m
    omega
  | half n =>
    have hbelow : n ≤ m := by exact_mod_cast (by linarith : (n : ℚ) ≤ m)
    have habove : m ≤ n + 1 := by exact_mod_cast (by linarith : (m : ℚ) ≤ n + 1)
    change n + n % 2 = m
    obtain rfl | rfl : m = n ∨ m = n + 1 := by omega
    · have heven : ¬ m % 2 = 1 := fun hm => (hodd hm).2 rfl
      omega
    · have heven : ¬ (n + 1) % 2 = 1 := fun hm => (hodd hm).1 (by push_cast; ring)
      omega
  | @high n _ hl hu =>
    have hbelow : n < m := by exact_mod_cast (by linarith : (n : ℚ) < m)
    have habove : m < n + 2 := by exact_mod_cast (by linarith : (m : ℚ) < n + 2)
    change n + 1 = m
    omega

/-- A fraction of the last place, as its accuracy records it. -/
theorem ofFraction (p : ℕ) {q : ℕ} (hq : 0 < q) :
    Represents (.ofMantissaAndAccuracy (p / q) (accuracyOfFraction (p % q) q)) (p / q) := by
  have hpos : (0 : ℚ) < q := by exact_mod_cast hq
  have hvalue : (p / q : ℚ) = (p / q : ℕ) + (p % q : ℕ) / q := by
    field_simp
    exact_mod_cast (Nat.div_add_mod p q).symm
  have hless : ((p % q : ℕ) : ℚ) / q < 1 := by
    rw [div_lt_one hpos]
    exact_mod_cast Nat.mod_lt p hq
  rw [hvalue, accuracyOfFraction]
  split
  next hzero =>
    rw [hzero, Nat.cast_zero, zero_div, add_zero]
    exact whole (p / q)
  next hne =>
    have hmore : (0 : ℚ) < (p % q : ℕ) / q := by
      have hrest : (0 : ℚ) < (p % q : ℕ) := by exact_mod_cast Nat.pos_of_ne_zero hne
      positivity
    cases hcompare : compare (2 * (p % q)) q with
    | lt =>
      have hhalf : ((p % q : ℕ) : ℚ) / q < 1 / 2 := by
        rw [div_lt_div_iff₀ hpos two_pos]
        exact_mod_cast (by have := Nat.compare_eq_lt.1 hcompare; omega : p % q * 2 < 1 * q)
      exact low (by linarith) (by linarith)
    | eq =>
      have hhalf : ((p % q : ℕ) : ℚ) / q = 1 / 2 := by
        rw [div_eq_div_iff hpos.ne' two_ne_zero]
        exact_mod_cast (by have := Nat.compare_eq_eq.1 hcompare; omega : p % q * 2 = 1 * q)
      rw [hhalf]
      exact half _
    | gt =>
      have hhalf : 1 / 2 < ((p % q : ℕ) : ℚ) / q := by
        rw [div_lt_div_iff₀ two_pos hpos]
        exact_mod_cast (by have := Nat.compare_eq_gt.1 hcompare; omega : 1 * q < p % q * 2)
      exact high (by linarith) (by linarith)

/-- The mantissa is the whole part. -/
theorem bounds (h : Represents em v) : (em.mantissa : ℚ) ≤ v ∧ v < em.mantissa + 1 := by
  cases h with
  | whole | half => constructor <;> simp only <;> linarith
  | low hl hu | high hl hu => constructor <;> simp only <;> linarith

end Represents

/-! Magnitudes and what rounds to them. -/

namespace Magnitude

/-- The magnitudes of finite doubles. -/
structure Canonical (x : Magnitude) : Prop where
  mantissa_lt : x.mantissa < 2 ^ 53
  scale_ge : -1074 ≤ x.scale
  scale_le : x.scale ≤ 971
  normal : x.scale = -1074 ∨ 2 ^ 52 ≤ x.mantissa
  tight_iff : x.tight = true ↔ x.mantissa = 2 ^ 52 ∧ -1074 < x.scale

/-- The number that is meant. -/
def value (x : Magnitude) : ℚ := x.mantissa * 2 ^ x.scale

/-- The half-way point to the magnitude below. -/
def lower (x : Magnitude) : ℚ := (x.mantissa - if x.tight then 1 / 4 else 1 / 2) * 2 ^ x.scale

/-- The half-way point to the magnitude above. -/
def upper (x : Magnitude) : ℚ := (x.mantissa + 1 / 2) * 2 ^ x.scale

/-- Between the half-way points around the magnitude, and at one of them only if the mantissa is
even. -/
structure Nearest (x : Magnitude) (v : ℚ) : Prop where
  lower_le : x.lower ≤ v
  le_upper : v ≤ x.upper
  odd : x.mantissa % 2 = 1 → x.lower ≠ v ∧ v ≠ x.upper

variable {x : Magnitude} {v : ℚ}

private theorem two_pow_mul_zpow (n : ℕ) (e : ℤ) : (2 : ℚ) ^ n * 2 ^ e = 2 ^ (e + n) := by
  rw [← zpow_natCast, ← zpow_add₀ two_ne_zero, add_comm]

theorem le_lower (x : Magnitude) : (x.mantissa - 1 / 2) * 2 ^ x.scale ≤ x.lower := by
  rw [lower]
  refine mul_le_mul_of_nonneg_right ?_ (by positivity)
  split <;> linarith

/-- A magnitude is nearest to itself. -/
theorem nearest_value (x : Magnitude) : x.Nearest x.value := by
  have hpos : (0 : ℚ) < 2 ^ x.scale := by positivity
  have hlower : x.lower < x.value := by
    refine mul_lt_mul_of_pos_right ?_ hpos
    split <;> linarith
  have hupper : x.value < x.upper := mul_lt_mul_of_pos_right (by linarith) hpos
  exact ⟨hlower.le, hupper.le, fun _ => ⟨hlower.ne, hupper.ne⟩⟩

theorem Canonical.lower_of_odd (hx : x.Canonical) (hodd : x.mantissa % 2 = 1) :
    x.lower = (x.mantissa - 1 / 2) * 2 ^ x.scale := by
  have hloose : ¬ x.tight = true := fun htight => by
    have hpower := (hx.tight_iff.1 htight).1
    omega
  rw [lower, if_neg hloose]

namespace Nearest

/-- The half-way point above the largest mantissa stays below the next power of two. -/
theorem lt (h : x.Nearest v) (hx : x.Canonical) : v < 2 ^ (x.scale + 53) := by
  have hmantissa : (x.mantissa : ℚ) + 1 / 2 < 2 ^ 53 := by
    have hcast : (x.mantissa : ℚ) + 1 ≤ 2 ^ 53 := by exact_mod_cast hx.mantissa_lt
    linarith
  calc v ≤ (x.mantissa + 1 / 2) * 2 ^ x.scale := h.le_upper
    _ < 2 ^ 53 * 2 ^ x.scale := mul_lt_mul_of_pos_right hmantissa (by positivity)
    _ = 2 ^ (x.scale + 53) := two_pow_mul_zpow 53 x.scale

theorem le_of_mantissa (h : x.Nearest v) {n : ℕ} (hn : (2 : ℚ) ^ n ≤ x.mantissa - 1 / 2) :
    2 ^ (x.scale + n) ≤ v :=
  calc (2 : ℚ) ^ (x.scale + n) = 2 ^ n * 2 ^ x.scale := (two_pow_mul_zpow n x.scale).symm
    _ ≤ (x.mantissa - 1 / 2) * 2 ^ x.scale := mul_le_mul_of_nonneg_right hn (by positivity)
    _ ≤ x.lower := x.le_lower
    _ ≤ v := h.lower_le

/-- Below a power of two, and still rounded to it: only where the spacing changes. -/
theorem cases_normal (h : x.Nearest v) (hx : x.Canonical) (hscale : -1074 < x.scale) :
    2 ^ (x.scale + 52) ≤ v ∨
      2 ^ (x.scale + 51) ≤ v ∧ v < 2 ^ (x.scale + 52) ∧ x.mantissa = 2 ^ 52 ∧ x.tight = true := by
  obtain hmore | hequal := (hx.normal.resolve_left hscale.ne').lt_or_eq
  · have hmantissa : (2 : ℚ) ^ 52 + 1 ≤ x.mantissa := by exact_mod_cast hmore
    exact .inl (h.le_of_mantissa (n := 52) (by linarith))
  · have hmantissa : (2 : ℚ) ^ 51 ≤ x.mantissa - 1 / 2 := by
      rw [← hequal]
      norm_num
    by_cases hv : (2 : ℚ) ^ (x.scale + 52) ≤ v
    · exact .inl hv
    · exact .inr ⟨h.le_of_mantissa (n := 51) hmantissa, not_le.1 hv, hequal.symm,
        hx.tight_iff.2 ⟨hequal.symm, hscale⟩⟩

end Nearest

section
variable {m : ℕ} {e : ℤ} {u : ℚ}

theorem lt_two_zpow_totalExponent (hlt : u < m + 1) : u * 2 ^ e < 2 ^ totalExponent m e := by
  have hmantissa : (m : ℚ) + 1 ≤ 2 ^ (m.log2 + 1) := by
    exact_mod_cast Nat.lt_log2_self
  calc u * 2 ^ e < 2 ^ (m.log2 + 1) * 2 ^ e :=
        mul_lt_mul_of_pos_right (hlt.trans_le hmantissa) (by positivity)
    _ = 2 ^ totalExponent m e := by
      rw [two_pow_mul_zpow, totalExponent]
      congr 1
      push_cast
      ring

theorem two_zpow_totalExponent_le (hm : m ≠ 0) (hle : m ≤ u) :
    2 ^ (totalExponent m e - 1) ≤ u * 2 ^ e := by
  have hmantissa : (2 : ℚ) ^ m.log2 ≤ m := by
    exact_mod_cast Nat.log2_self_le hm
  calc (2 : ℚ) ^ (totalExponent m e - 1) = 2 ^ m.log2 * 2 ^ e := by
        rw [two_pow_mul_zpow, totalExponent]
        congr 1
        ring
    _ ≤ u * 2 ^ e := mul_le_mul_of_nonneg_right (hmantissa.trans hle) (by positivity)

theorem targetExponent_eq (t : ℤ) :
    Format.binary64.targetExponent t = max (t - 53) (-1074) := rfl

/-- A canonical magnitude stands at the exponent that rounding aims at. -/
theorem Canonical.targetExponent_eq (hx : x.Canonical) (hpos : 0 < x.mantissa) :
    Format.binary64.targetExponent (totalExponent x.mantissa x.scale) = x.scale := by
  have hge := hx.scale_ge
  have hlog : x.mantissa.log2 < 53 := (Nat.log2_lt hpos.ne').2 hx.mantissa_lt
  rw [Magnitude.targetExponent_eq, totalExponent]
  obtain hscale | hfull := hx.normal
  · omega
  · have hfull := (Nat.le_log2 hpos.ne').2 hfull
    omega

/-- The exponent that a value is first rounded at is the right one, or it is one too small and
rounding makes up for that. -/
theorem targetExponent_cases (hx : x.Canonical) (hle : m ≤ u) (hlt : u < m + 1)
    (hn : x.Nearest (u * 2 ^ e))
    (he : e ≤ Format.binary64.targetExponent (totalExponent m e)) :
    Format.binary64.targetExponent (totalExponent m e) = x.scale ∨
      Format.binary64.targetExponent (totalExponent m e) + 1 = x.scale ∧ x.mantissa = 2 ^ 52 ∧
        x.tight = true ∧ u * 2 ^ e < 2 ^ (x.scale + 52) := by
  have hge := hx.scale_ge
  rw [targetExponent_eq] at he ⊢
  have habove : max (totalExponent m e - 53) (-1074) ≤ x.scale := by
    by_cases hm : m = 0
    · subst hm
      have hzero : totalExponent 0 e = 1 + e := by simp [totalExponent]
      omega
    · have hless := (two_zpow_totalExponent_le hm hle).trans_lt (hn.lt hx)
      rw [zpow_lt_zpow_iff_right₀ one_lt_two] at hless
      omega
  have hless := lt_two_zpow_totalExponent (e := e) hlt
  obtain hscale | hscale := hge.eq_or_lt
  · omega
  obtain hv | ⟨hv, hv', hmantissa, htight⟩ := hn.cases_normal hx hscale
  · have hpower := hv.trans_lt hless
    rw [zpow_lt_zpow_iff_right₀ one_lt_two] at hpower
    omega
  · have hpower := hv.trans_lt hless
    rw [zpow_lt_zpow_iff_right₀ one_lt_two] at hpower
    by_cases hsame : max (totalExponent m e - 53) (-1074) = x.scale
    · exact .inl hsame
    · exact .inr ⟨by omega, hmantissa, htight, hv'⟩

/-! The two shifts of a rounding. -/

theorem shiftToTargetExponent_eq {acc : Accuracy}
    (he : e ≤ Format.binary64.targetExponent (totalExponent m e)) :
    shiftToTargetExponent .binary64 m e acc =
      (ExtendedMantissa.ofMantissaAndAccuracy m acc >>>
          (Format.binary64.targetExponent (totalExponent m e) - e).toNat,
        Format.binary64.targetExponent (totalExponent m e)) := by
  simp only [shiftToTargetExponent, shiftToExponent, Prod.mk.injEq, true_and]
  omega

/-- What a shifted mantissa is rounded to, by the value at the new exponent. -/
theorem roundedMantissa_shiftRight {em : ExtendedMantissa} {t : ℤ} {r : ℕ} (hu : Represents em u)
    (he : e ≤ t) (hlower : ((r : ℚ) - 1 / 2) * 2 ^ t ≤ u * 2 ^ e)
    (hupper : u * 2 ^ e ≤ ((r : ℚ) + 1 / 2) * 2 ^ t)
    (hodd : r % 2 = 1 → ((r : ℚ) - 1 / 2) * 2 ^ t ≠ u * 2 ^ e ∧
      u * 2 ^ e ≠ ((r : ℚ) + 1 / 2) * 2 ^ t) :
    (em >>> (t - e).toNat).roundedMantissa = r := by
  have hpos : (0 : ℚ) < 2 ^ t := by positivity
  have hshifted : u / 2 ^ (t - e).toNat = u * 2 ^ e / 2 ^ t := by
    rw [div_eq_div_iff (by positivity) hpos.ne', mul_assoc, mul_comm (2 ^ e) (2 ^ _),
      two_pow_mul_zpow]
    congr 2
    omega
  have hvalue := hu.shiftRight (t - e).toNat
  rw [hshifted] at hvalue
  refine hvalue.roundedMantissa ((le_div_iff₀ hpos).2 hlower) ((div_le_iff₀ hpos).2 hupper) ?_
  intro hr
  obtain ⟨hne, hne'⟩ := hodd hr
  exact ⟨fun h => hne ((eq_div_iff hpos.ne').1 h), fun h => hne' ((div_eq_iff hpos.ne').1 h)⟩

/-- A mantissa of at most 53 bits stays as it is. -/
theorem shiftToTargetExponent_exact (hm : m < 2 ^ 53) (he : -1074 ≤ e) :
    shiftToTargetExponent .binary64 m e .exact = (⟨m, false, false⟩, e) := by
  have hlog : m.log2 ≤ 52 := by
    by_cases hzero : m = 0
    · simp [hzero]
    · have := (Nat.log2_lt hzero).2 hm
      omega
  have hstay : (Format.binary64.targetExponent (totalExponent m e) - e).toNat = 0 := by
    rw [targetExponent_eq, totalExponent]
    omega
  rw [shiftToTargetExponent, shiftToExponent, hstay, Nat.cast_zero, add_zero]
  rfl

/-- The mantissa that rounding has carried into a 54th bit. -/
theorem shiftToTargetExponent_carry (he : -1074 ≤ e) :
    shiftToTargetExponent .binary64 (2 ^ 53) e .exact = (⟨2 ^ 52, false, false⟩, e + 1) := by
  have hstep : (Format.binary64.targetExponent (totalExponent (2 ^ 53) e) - e).toNat = 1 := by
    rw [targetExponent_eq, totalExponent, Nat.log2_two_pow]
    omega
  rw [shiftToTargetExponent, shiftToExponent, hstep]
  rfl

/-- A value nearest to a magnitude is rounded to it. -/
theorem roundWithAccuracy_eq {acc : Accuracy} (hx : x.Canonical) (hpos : 0 < x.mantissa)
    (hu : Represents (.ofMantissaAndAccuracy m acc) u) (hn : x.Nearest (u * 2 ^ e))
    (he : e ≤ Format.binary64.targetExponent (totalExponent m e)) (s : Sign) :
    roundWithAccuracy .binary64 s m e acc = .finite s x.mantissa x.scale hpos := by
  have hmantissa : (ExtendedMantissa.ofMantissaAndAccuracy m acc).mantissa = m := by
    obtain _ | (_ | _ | _) := acc <;> rfl
  obtain ⟨hle, hlt⟩ := hu.bounds
  rw [hmantissa] at hle hlt
  rw [roundWithAccuracy, shiftToTargetExponent_eq he]
  obtain ht | ⟨ht, hpower, htight, hless⟩ := targetExponent_cases hx hle hlt hn he
  · have hrounded := roundedMantissa_shiftRight hu (ht ▸ he) (x.le_lower.trans hn.lower_le)
      hn.le_upper fun hodd => hx.lower_of_odd hodd ▸ hn.odd hodd
    simp only [ht, hrounded, shiftToTargetExponent_exact hx.mantissa_lt hx.scale_ge, hpos.ne',
      dite_false]
  · have ht' : Format.binary64.targetExponent (totalExponent m e) = x.scale - 1 := by omega
    have hge : -1074 ≤ x.scale - 1 := by
      have := (hx.tight_iff.1 htight).2
      omega
    have hhalf : (2 : ℚ) ^ x.scale = 2 * 2 ^ (x.scale - 1) := by
      have hdouble := two_pow_mul_zpow 1 (x.scale - 1)
      rw [pow_one, Nat.cast_one, sub_add_cancel] at hdouble
      exact hdouble.symm
    have hlower : ((2 ^ 53 : ℕ) - 1 / 2 : ℚ) * 2 ^ (x.scale - 1) = x.lower := by
      rw [lower, if_pos htight, hpower, hhalf]
      push_cast
      ring
    have hupper : u * 2 ^ e < (2 ^ 53 : ℕ) * 2 ^ (x.scale - 1) := by
      refine hless.trans_eq ?_
      rw [Nat.cast_pow, Nat.cast_ofNat, two_pow_mul_zpow]
      congr 1
      push_cast
      ring
    have hrounded := roundedMantissa_shiftRight (r := 2 ^ 53) hu (ht' ▸ he)
      (hlower.trans_le hn.lower_le) (hupper.le.trans (by gcongr; linarith)) fun hodd => by omega
    simp only [ht', hrounded, shiftToTargetExponent_carry hge, hpower, sub_add_cancel]
    rfl

end

end Magnitude
end Lox.Number
