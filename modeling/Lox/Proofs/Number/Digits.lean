import Mathlib
import Lox.Proofs.Number.Rounding

/-! The shortest digits: whatever grid they are found on, they are among the numbers that round to
the magnitude. -/
namespace Lox.Number

/-- The number that is meant. -/
def Decimal.value (d : Decimal) : ℚ := d.digits * 10 ^ d.exponent

/-! The choice of a grid. -/

namespace Interval

variable {i : Interval} {tie : Tie}

theorem contains_of_onGrid {drop n : ℕ} (h : i.onGrid tie drop = some n) :
    i.contains (n * 10 ^ drop) = true := by
  simp only [onGrid] at h
  split at h
  next => cases h
  next hbelow _ =>
    cases h
    exact hbelow
  next _ habove =>
    cases h
    exact habove
  next hbelow habove =>
    have hone : n = i.value / Nat.pow 10 drop ∨ n = i.value / Nat.pow 10 drop + 1 := by
      split at h
      next => exact .inl (Option.some.inj h).symm
      next => exact .inr (Option.some.inj h).symm
      next =>
        cases tie with
        | up => exact .inr (Option.some.inj h).symm
        | even =>
          have hn := (Option.some.inj h).symm
          split at hn
          · exact .inl hn
          · exact .inr hn
    obtain rfl | rfl := hone
    · exact hbelow
    · exact habove

/-- The digits that are selected stay in the interval, since its own value does. -/
theorem contains_select (h : i.contains i.value = true) (tie : Tie) (drop : ℕ) :
    ∃ k : ℕ, (i.select tie drop).exponent = i.exponent + k ∧
      i.contains ((i.select tie drop).digits * 10 ^ k) = true := by
  induction drop with
  | zero => exact ⟨0, by rw [select, Nat.cast_zero, add_zero], by rwa [pow_zero, mul_one]⟩
  | succ drop ih =>
    rw [select]
    split
    next n hn => exact ⟨drop + 1, rfl, contains_of_onGrid hn⟩
    next => exact ih

end Interval

/-! The interval of a magnitude, in units of its power of ten. -/

namespace Magnitude

variable {x : Magnitude}

/-- A quarter of the spacing, as the interval counts it. -/
private def quarters (e : ℤ) : ℕ := 2 ^ e.toNat * 5 ^ (-e).toNat

private theorem quarters_mul (e : ℤ) : (quarters e : ℚ) * 10 ^ min e 0 = 2 ^ e := by
  rw [quarters]
  obtain hsign | hsign := le_total 0 e
  · obtain ⟨n, rfl⟩ := Int.eq_ofNat_of_zero_le hsign
    simp
  · obtain ⟨n, hn⟩ := Int.eq_ofNat_of_zero_le (neg_nonneg.2 hsign)
    obtain rfl : e = -n := by omega
    have hten : (10 : ℚ) ^ n = 2 ^ n * 5 ^ n := by rw [← mul_pow]; norm_num
    simp only [Int.toNat_neg_natCast, pow_zero, one_mul, neg_neg, Int.toNat_natCast, Nat.cast_pow,
      Nat.cast_ofNat, min_eq_left hsign, zpow_neg, zpow_natCast, hten]
    field_simp

private theorem quarter_spacing (x : Magnitude) :
    (quarters (x.scale - 2) : ℚ) * 10 ^ x.interval.exponent = 2 ^ x.scale / 4 := by
  have hexponent : x.interval.exponent = min (x.scale - 2) 0 := rfl
  rw [hexponent, quarters_mul, zpow_sub₀ two_ne_zero]
  norm_num

theorem interval_lower (hpos : 0 < x.mantissa) :
    (x.interval.lower : ℚ) * 10 ^ x.interval.exponent = x.lower := by
  have hlower : x.interval.lower =
    (4 * x.mantissa - if x.tight then 1 else 2) * quarters (x.scale - 2) := rfl
  have hroom : (if x.tight then 1 else 2) ≤ 4 * x.mantissa := by
    split <;> omega
  rw [hlower, Nat.cast_mul, mul_assoc, quarter_spacing, Nat.cast_sub hroom, lower]
  split <;> push_cast <;> ring

theorem interval_upper (x : Magnitude) :
    (x.interval.upper : ℚ) * 10 ^ x.interval.exponent = x.upper := by
  have hupper : x.interval.upper = (4 * x.mantissa + 2) * quarters (x.scale - 2) := rfl
  rw [hupper, Nat.cast_mul, mul_assoc, quarter_spacing, upper]
  push_cast
  ring

theorem contains_interval_value (hpos : 0 < x.mantissa) :
    x.interval.contains x.interval.value = true := by
  have hunit : 0 < quarters (x.scale - 2) := by
    rw [quarters]
    positivity
  have hlower : x.interval.lower < x.interval.value :=
    Nat.mul_lt_mul_of_pos_right (by split <;> omega) hunit
  have hupper : x.interval.value < x.interval.upper :=
    Nat.mul_lt_mul_of_pos_right (by omega) hunit
  rw [Interval.contains]
  split
  · simp only [hlower.le, hupper.le, decide_true, Bool.and_self]
  · simp only [hlower, hupper, decide_true, Bool.and_self]

theorem nearest_of_contains (hpos : 0 < x.mantissa) {n : ℕ}
    (h : x.interval.contains n = true) : x.Nearest (n * 10 ^ x.interval.exponent) := by
  have hscale : (0 : ℚ) < 10 ^ x.interval.exponent := by positivity
  have hclosed : x.interval.closed = (x.mantissa % 2 == 0) := rfl
  rw [Interval.contains, hclosed] at h
  split at h
  next heven =>
    simp only [Bool.and_eq_true, decide_eq_true_eq] at h
    obtain ⟨hlower, hupper⟩ := h
    refine ⟨?_, ?_, fun hodd => ?_⟩
    · rw [← interval_lower hpos]
      exact mul_le_mul_of_nonneg_right (by exact_mod_cast hlower) hscale.le
    · rw [← interval_upper]
      exact mul_le_mul_of_nonneg_right (by exact_mod_cast hupper) hscale.le
    · rw [hodd] at heven
      cases heven
  next hodd =>
    simp only [Bool.and_eq_true, decide_eq_true_eq] at h
    obtain ⟨hlower, hupper⟩ := h
    have hlower' : x.lower < n * 10 ^ x.interval.exponent := by
      rw [← interval_lower hpos]
      exact mul_lt_mul_of_pos_right (by exact_mod_cast hlower) hscale
    have hupper' : n * 10 ^ x.interval.exponent < x.upper := by
      rw [← interval_upper]
      exact mul_lt_mul_of_pos_right (by exact_mod_cast hupper) hscale
    exact ⟨hlower'.le, hupper'.le, fun _ => ⟨hlower'.ne, hupper'.ne⟩⟩

/-- The shortest digits round to the magnitude. -/
theorem nearest_shortest (hpos : 0 < x.mantissa) (tie : Tie) :
    x.Nearest (x.shortest tie).value := by
  rw [shortest, if_neg hpos.ne']
  obtain ⟨k, hexponent, hcontains⟩ := Interval.contains_select (contains_interval_value hpos) tie
    (Nat.toDigits 10 x.interval.value).length
  have hnearest := nearest_of_contains hpos hcontains
  rw [Nat.cast_mul, Nat.cast_pow, Nat.cast_ofNat, ← zpow_natCast, mul_assoc,
    ← zpow_add₀ (by norm_num), add_comm, ← hexponent] at hnearest
  exact hnearest

end Magnitude

end Lox.Number
