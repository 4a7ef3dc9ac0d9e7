import Mathlib
import Lox.Number.Layout

/-! Doubles that only the sign of zero tells apart. Arithmetic makes no more of the difference than
that again; comparison and the printed text make nothing of it. -/
namespace Lox.Number

open Float.Model (UnpackedFloat Format)
open Float.Model.UnpackedFloat (Sign)

/-- Equal doubles, or NaN both. -/
def Alike (x y : Float) : Prop := (x == y) = true ∨ x.isNaN = true ∧ y.isNaN = true

/-! Doubles taken apart into sign, mantissa and exponent. -/

/-- The same, or zero both. -/
inductive UpToZero : UnpackedFloat → UnpackedFloat → Prop
  | same (a : UnpackedFloat) : UpToZero a a
  | zeros (s t : Sign) : UpToZero (.zero s) (.zero t)

namespace UpToZero

variable {a a' b b' c : UnpackedFloat}

theorem symm (h : UpToZero a b) : UpToZero b a := by
  cases h with
  | same => exact .same _
  | zeros s t => exact .zeros t s

theorem trans (h : UpToZero a b) (h' : UpToZero b c) : UpToZero a c := by
  cases h with
  | same => exact h'
  | zeros s t =>
    cases h' with
    | same => exact .zeros s t
    | zeros _ u => exact .zeros s u

theorem of_beq (h : a.beq b = true) : UpToZero a b := by
  obtain ⟨-, -, rfl | ⟨rfl, rfl⟩ | ⟨rfl, rfl⟩⟩ :=
    (UnpackedFloat.beq_iff_ne_notANumber_and_eq a b).1 h
  · exact .same a
  · exact .zeros _ _
  · exact .zeros _ _

theorem neg (h : UpToZero a b) : UpToZero a.neg b.neg := by
  cases h with
  | same => exact .same _
  | zeros s t => exact .zeros _ _

section
variable (spec : Format)

theorem zero_add (s : Sign) (b : UnpackedFloat) :
    UpToZero (UnpackedFloat.add spec (.zero s) b) b := by
  cases b with
  | zero t =>
    rw [UnpackedFloat.add]
    split <;> exact .zeros _ _
  | notANumber | infinity | finite => exact .same _

theorem add_zero (a : UnpackedFloat) (s : Sign) :
    UpToZero (UnpackedFloat.add spec a (.zero s)) a := by
  cases a with
  | zero t => exact zero_add spec t _ |>.trans (.zeros s t)
  | notANumber | infinity | finite => exact .same _

theorem zero_sub (s : Sign) (b : UnpackedFloat) :
    UpToZero (UnpackedFloat.sub spec (.zero s) b) b.neg := by
  cases b with
  | zero t =>
    rw [UnpackedFloat.sub]
    split <;> exact .zeros _ _
  | notANumber | infinity | finite => exact .same _

theorem sub_zero (a : UnpackedFloat) (s : Sign) :
    UpToZero (UnpackedFloat.sub spec a (.zero s)) a := by
  cases a with
  | zero t => exact zero_sub spec t _ |>.trans (.zeros _ t)
  | notANumber | infinity | finite => exact .same _

theorem add (ha : UpToZero a a') (hb : UpToZero b b') :
    UpToZero (UnpackedFloat.add spec a b) (UnpackedFloat.add spec a' b') := by
  refine trans (b := UnpackedFloat.add spec a' b) ?_ ?_
  · cases ha with
    | same => exact .same _
    | zeros s t => exact (zero_add spec s b).trans (zero_add spec t b).symm
  · cases hb with
    | same => exact .same _
    | zeros s t => exact (add_zero spec a' s).trans (add_zero spec a' t).symm

theorem sub (ha : UpToZero a a') (hb : UpToZero b b') :
    UpToZero (UnpackedFloat.sub spec a b) (UnpackedFloat.sub spec a' b') := by
  refine trans (b := UnpackedFloat.sub spec a' b) ?_ ?_
  · cases ha with
    | same => exact .same _
    | zeros s t => exact (zero_sub spec s b).trans (zero_sub spec t b).symm
  · cases hb with
    | same => exact .same _
    | zeros s t => exact (sub_zero spec a' s).trans (sub_zero spec a' t).symm

/-- Zero times anything is a zero or NaN, and which of these the sign of zero does not decide. -/
theorem mul (ha : UpToZero a a') (hb : UpToZero b b') :
    UpToZero (UnpackedFloat.mul spec a b) (UnpackedFloat.mul spec a' b') := by
  refine trans (b := UnpackedFloat.mul spec a' b) ?_ ?_
  · cases ha with
    | same => exact .same _
    | zeros s t =>
      cases b with
      | zero | finite => exact .zeros _ _
      | notANumber | infinity => exact .same _
  · cases hb with
    | same => exact .same _
    | zeros s t =>
      cases a' with
      | zero | finite => exact .zeros _ _
      | notANumber | infinity => exact .same _

/-- Only a quotient by zero would show the sign of zero, in the sign of an infinity. -/
theorem div (ha : UpToZero a a') (b : UnpackedFloat) (hb : ∀ s, b ≠ .zero s) :
    UpToZero (UnpackedFloat.div spec a b) (UnpackedFloat.div spec a' b) := by
  cases ha with
  | same => exact .same _
  | zeros s t =>
    cases b with
    | zero u => exact absurd rfl (hb u)
    | infinity | finite => exact .zeros _ _
    | notANumber => exact .same _

end

theorem compare_eq (ha : UpToZero a a') (hb : UpToZero b b') :
    a.compare b = a'.compare b' := by
  trans a'.compare b
  · cases ha with
    | same => rfl
    | zeros s t => cases b with
      | infinity s' | finite s' => cases s' <;> rfl
      | zero | notANumber => rfl
  · cases hb with
    | same => rfl
    | zeros s t => cases a' with
      | infinity s' | finite s' => cases s' <;> rfl
      | zero | notANumber => rfl

end UpToZero

/-! Doubles. -/

section
variable {x x' y y' : Float}

/-- Packing keeps NaN, and both zeros are equal numbers. -/
theorem alike_pack {a b : UnpackedFloat} (h : UpToZero a b) :
    Alike (.ofModel (.pack a)) (.ofModel (.pack b)) := by
  cases h with
  | same =>
    cases hx : Float.isNaN (.ofModel (.pack a)) with
    | true => exact .inr ⟨hx, hx⟩
    | false =>
      refine .inl (Float.beq_self_iff.2 fun he => ?_)
      simp [he] at hx
  | zeros s t => cases s <;> cases t <;> exact .inl (by decide)

theorem neg_alike (hx : (x == x') = true) : Alike (-x) (-x') :=
  alike_pack (UpToZero.of_beq hx).neg

theorem add_alike (hx : (x == x') = true) (hy : (y == y') = true) : Alike (x + y) (x' + y') :=
  alike_pack (.add .binary64 (.of_beq hx) (.of_beq hy))

theorem sub_alike (hx : (x == x') = true) (hy : (y == y') = true) : Alike (x - y) (x' - y') :=
  alike_pack (.sub .binary64 (.of_beq hx) (.of_beq hy))

theorem mul_alike (hx : (x == x') = true) (hy : (y == y') = true) : Alike (x * y) (x' * y') :=
  alike_pack (.mul .binary64 (.of_beq hx) (.of_beq hy))

theorem beq_congr (hx : (x == x') = true) (hy : (y == y') = true) :
    (x == y) = (x' == y') := by
  rw [Bool.eq_iff_iff]
  exact ⟨fun h => BEq.trans (BEq.symm hx) (BEq.trans h hy),
    fun h => BEq.trans hx (BEq.trans h (BEq.symm hy))⟩

/-- Equal divisors that are not zero are the same. -/
theorem div_alike (hx : (x == x') = true) (hy : (y == y') = true) (hne : (y == 0.0) = false) :
    Alike (x / y) (x' / y') := by
  obtain ⟨-, -, rfl | ⟨rfl, -⟩ | ⟨rfl, -⟩⟩ := Float.beq_iff_ne_nan_and_eq.1 hy
  · refine alike_pack (.div .binary64 (.of_beq hx) _ fun s hs => ?_)
    have hzero : y.toModel.unpack.beq (0.0 : Float).toModel.unpack = true := by
      rw [hs]
      cases s <;> rfl
    exact absurd (hzero.symm.trans hne) (by decide)
  · exact absurd hne (by decide)
  · exact absurd hne (by decide)

private theorem lt_iff (x y : Float) : x < y ↔ x.toModel.unpack.lt y.toModel.unpack = true :=
  decide_eq_true_iff

private theorem le_iff (x y : Float) : x ≤ y ↔ x.toModel.unpack.le y.toModel.unpack = true :=
  decide_eq_true_iff

theorem lt_congr (hx : (x == x') = true) (hy : (y == y') = true) : x < y ↔ x' < y' := by
  rw [lt_iff, lt_iff, UnpackedFloat.lt, UnpackedFloat.lt,
    UpToZero.compare_eq (.of_beq hx) (.of_beq hy)]

theorem le_congr (hx : (x == x') = true) (hy : (y == y') = true) : x ≤ y ↔ x' ≤ y' := by
  rw [le_iff, le_iff, UnpackedFloat.le, UnpackedFloat.le,
    UpToZero.compare_eq (.of_beq hx) (.of_beq hy)]

end

/-! The printed text. -/

theorem Magnitude.whole?_zero {x : Magnitude} (h : x.mantissa = 0) : x.whole? = some 0 := by
  simp only [whole?, h, Nat.zero_mod, Nat.zero_div, Nat.zero_mul, if_true]

/-- Among the integers that `print` writes out zero has no sign. -/
theorem printed_zero {x : Float} (hx : (Magnitude.ofFloat x).mantissa = 0) (hnan : x.isNaN = false)
    (hinf : x.isInf = false) : printed.write x = "0" := by
  have hcovers : printed.exact.covers 0 = true := rfl
  have hfinite : printed.finite (isNegative x) (.ofFloat x) = ['0'] := by
    rw [Layout.finite, Magnitude.whole?_zero hx]
    simp only [hcovers, if_true]
    cases isNegative x <;> rfl
  simp only [Layout.write, hnan, hinf, hfinite, Bool.false_eq_true, if_false]

theorem printed_congr {x y : Float} (h : (x == y) = true) : printed.write x = printed.write y := by
  have hpositive : printed.write 0 = "0" := printed_zero (by decide) (by decide) (by decide)
  have hnegative : printed.write (-0) = "0" := printed_zero (by decide) (by decide) (by decide)
  obtain ⟨-, -, rfl | ⟨rfl, rfl⟩ | ⟨rfl, rfl⟩⟩ := Float.beq_iff_ne_nan_and_eq.1 h
  · rfl
  · exact hpositive.trans hnegative.symm
  · exact hnegative.trans hpositive.symm

end Lox.Number
