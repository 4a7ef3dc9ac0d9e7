import Mathlib
import Lox.Heap
import Lox.Operators
import Lox.Proofs.Number.SignedZero

/-! Equal values cannot be told apart by operators, by their truth or by what is printed of them. Of
all values only NaN differs from itself, and only numbers have other values that are equal to them:
the two zeros. -/
namespace Lox

namespace Value

/-- The number that is not equal to itself. -/
def IsNaN : Value → Prop
  | .number x => x.isNaN = true
  | _ => False

/-- Equal values, or NaN both. -/
def Alike (v w : Value) : Prop := v.equal w = true ∨ v.IsNaN ∧ w.IsNaN

/-- What equal values are: the same, or numbers that compare equal. -/
inductive Equals : Value → Value → Prop
  | numbers {x y : Float} : (x == y) = true → Equals (.number x) (.number y)
  | same {v : Value} : (∀ x, v ≠ .number x) → Equals v v

variable {u v w : Value}

theorem Equals.of_equal (h : v.equal w = true) : v.Equals w := by
  fun_cases Value.equal v w with
  | case1 => exact .same nofun
  | case3 x y => exact .numbers h
  | case2 | case4 | case5 | case6 | case7 | case8 =>
    obtain rfl := eq_of_beq h
    exact .same nofun
  | case9 => simp [equal] at h

theorem Equals.equal (h : v.Equals w) : v.equal w = true := by
  cases h with
  | numbers hx => exact hx
  | same hne =>
    cases v with
    | number x => exact absurd rfl (hne x)
    | nil => rfl
    | _ => exact beq_self_eq_true _

theorem equal_comm (v w : Value) : v.equal w = w.equal v := by
  cases v <;> cases w <;> first | rfl | exact BEq.comm

theorem equal_trans (h : u.equal v = true) (h' : v.equal w = true) : u.equal w = true := by
  cases Equals.of_equal h with
  | same => exact h'
  | numbers hx =>
    cases Equals.of_equal h' with
    | numbers hy => exact BEq.trans hx hy
    | same hne => exact absurd rfl (hne _)

theorem Equals.equal_eq {v' w' : Value} (hv : v.Equals v') (hw : w.Equals w') :
    v.equal w = v'.equal w' := by
  have hv' : v'.equal v = true := (equal_comm v' v).trans hv.equal
  have hw' : w'.equal w = true := (equal_comm w' w).trans hw.equal
  rw [Bool.eq_iff_iff]
  exact ⟨fun h => equal_trans hv' (equal_trans h hw.equal),
    fun h => equal_trans hv.equal (equal_trans h hw')⟩

theorem equal_self_iff : v.equal v = true ↔ ¬ v.IsNaN := by
  cases v with
  | number x => simp [equal, IsNaN]
  | _ => simp [equal, IsNaN]

theorem Alike.refl (v : Value) : v.Alike v := by
  by_cases h : v.IsNaN
  · exact .inr ⟨h, h⟩
  · exact .inl (equal_self_iff.2 h)

theorem Equals.isTruthy (h : v.Equals w) : v.isTruthy = w.isTruthy := by
  cases h with
  | same => rfl
  | numbers hx => exact congrArg (! ·) (Number.beq_congr hx rfl)

theorem Equals.typeName (h : v.Equals w) : v.typeName = w.typeName := by
  cases h <;> rfl

theorem Equals.text (h : v.Equals w) (heap : Heap) : v.text heap = w.text heap := by
  cases h with
  | same => rfl
  | numbers hx => exact Number.printed_congr hx

end Value

/-- Two outcomes of an operator that cannot be told apart. -/
def OutcomesAlike : Except RuntimeFault Value → Except RuntimeFault Value → Prop
  | .ok v, .ok w => v.Alike w
  | .error f, .error g => f.message = g.message
  | _, _ => False

namespace OutcomesAlike

variable {v v' w w' : Value}

protected theorem refl (r : Except RuntimeFault Value) : OutcomesAlike r r := by
  cases r with
  | ok v => exact Value.Alike.refl v
  | error f => exact rfl

theorem unary (op : UnaryOp) (h : v.Equals v') : OutcomesAlike (op.apply v) (op.apply v') := by
  cases h with
  | same => exact .refl _
  | numbers hx =>
    cases op with
    | not => exact .inl (beq_iff_eq.2 (congrArg (! ·) (Value.Equals.numbers hx).isTruthy))
    | negate => exact Number.neg_alike hx

/-- An operator on numbers that cannot tell equal numbers apart. Of other values it does not even
see which they are. -/
theorem onNumbers {f : Float → Float → Except RuntimeFault Value}
    (hf : ∀ x x' y y', (x == x') = true → (y == y') = true → OutcomesAlike (f x y) (f x' y'))
    (hv : v.Equals v') (hw : w.Equals w') :
    OutcomesAlike (onNumbers f v w) (onNumbers f v' w') := by
  cases hv with
  | same hne =>
    cases v with
    | number x => exact absurd rfl (hne x)
    | _ => exact rfl
  | numbers hx =>
    cases hw with
    | numbers hy => exact hf _ _ _ _ hx hy
    | same hne =>
      cases w with
      | number y => exact absurd rfl (hne y)
      | _ => exact rfl

theorem plus (hv : v.Equals v') (hw : w.Equals w') : OutcomesAlike (v.plus w) (v'.plus w') := by
  cases hv with
  | numbers hx =>
    cases hw with
    | numbers hy => exact Number.add_alike hx hy
    | same hne =>
      cases w with
      | number y => exact absurd rfl (hne y)
      | string s =>
        rw [Value.plus, Value.plus, Number.printed_congr hx]
        exact .refl _
      | _ => exact rfl
  | same hne =>
    cases hw with
    | same => exact .refl _
    | numbers hy =>
      cases v with
      | number x => exact absurd rfl (hne x)
      | string s =>
        rw [Value.plus, Value.plus, Number.printed_congr hy]
        exact .refl _
      | _ => exact rfl

theorem divided {x x' y y' : Float} (hx : (x == x') = true) (hy : (y == y') = true) :
    OutcomesAlike (if y == 0.0 then .error .divisionByZero else .ok (.number (x / y)))
      (if y' == 0.0 then .error .divisionByZero else .ok (.number (x' / y'))) := by
  rw [← Number.beq_congr (y := 0.0) hy rfl]
  cases hzero : y == 0.0 with
  | true => exact rfl
  | false => exact Number.div_alike hx hy hzero

theorem strict (op : StrictOp) (hv : v.Equals v') (hw : w.Equals w') :
    OutcomesAlike (op.apply v w) (op.apply v' w') := by
  have hbool {p q : Prop} [Decidable p] [Decidable q] (h : p ↔ q) :
      OutcomesAlike (.ok (.bool (decide p))) (.ok (.bool (decide q))) := by
    rw [decide_eq_decide.2 h]
    exact .refl _
  cases op with
  | equal =>
    rw [StrictOp.apply, StrictOp.apply, hv.equal_eq hw]
    exact .refl _
  | notEqual =>
    rw [StrictOp.apply, StrictOp.apply, hv.equal_eq hw]
    exact .refl _
  | add => exact plus hv hw
  | subtract => exact onNumbers (fun _ _ _ _ hx hy => Number.sub_alike hx hy) hv hw
  | multiply => exact onNumbers (fun _ _ _ _ hx hy => Number.mul_alike hx hy) hv hw
  | divide => exact onNumbers (fun _ _ _ _ hx hy => divided hx hy) hv hw
  | less => exact onNumbers (fun _ _ _ _ hx hy => hbool (Number.lt_congr hx hy)) hv hw
  | lessEqual => exact onNumbers (fun _ _ _ _ hx hy => hbool (Number.le_congr hx hy)) hv hw
  | greater => exact onNumbers (fun _ _ _ _ hx hy => hbool (Number.lt_congr hy hx)) hv hw
  | greaterEqual => exact onNumbers (fun _ _ _ _ hx hy => hbool (Number.le_congr hy hx)) hv hw

end OutcomesAlike

/-- Equality of values is symmetric and transitive, and reflexive but for NaN. Equal values have the
same truth, type and text; an operator that takes equal operands in their place fails with the same
message, or gives an equal result, or NaN again. -/
theorem equal_indistinguishable :
    (∀ v w : Value, v.equal w = w.equal v) ∧
    (∀ u v w : Value, u.equal v = true → v.equal w = true → u.equal w = true) ∧
    (∀ v : Value, v.equal v = true ↔ ¬ v.IsNaN) ∧
    (∀ v v' : Value, v.equal v' = true → v.isTruthy = v'.isTruthy ∧ v.typeName = v'.typeName ∧
      (∀ h, v.text h = v'.text h) ∧
      ∀ op : UnaryOp, OutcomesAlike (op.apply v) (op.apply v')) ∧
    ∀ v v' w w' : Value, v.equal v' = true → w.equal w' = true →
      ∀ op : StrictOp, OutcomesAlike (op.apply v w) (op.apply v' w') := by
  refine ⟨Value.equal_comm, fun _ _ _ => Value.equal_trans, fun _ => Value.equal_self_iff,
    fun v v' h => ?_, fun v v' w w' hv hw op => .strict op (.of_equal hv) (.of_equal hw)⟩
  have hv := Value.Equals.of_equal h
  exact ⟨hv.isTruthy, hv.typeName, hv.text, fun op => .unary op hv⟩

/-- The two zeros give products with infinity that are NaN both. -/
theorem equal_indistinguishable_zeros :
    let zero := Value.number 0.0
    let negative := Value.number (-0.0)
    let infinity := Value.number (1.0 / 0.0)
    zero.equal negative = true ∧ infinity.equal infinity = true ∧
      zero.equal zero = true ∧ zero.text .empty = negative.text .empty ∧
      OutcomesAlike (UnaryOp.negate.apply zero) (UnaryOp.negate.apply negative) ∧
      OutcomesAlike (StrictOp.multiply.apply zero infinity)
        (StrictOp.multiply.apply negative infinity) := by
  intro zero negative infinity
  have hzeros : zero.equal negative = true := by decide
  have hback : negative.equal zero = true := by decide
  have hinfinity : infinity.equal infinity = true := by decide
  obtain ⟨-, htrans, -, hone, htwo⟩ := equal_indistinguishable
  obtain ⟨-, -, htext, hunary⟩ := hone zero negative hzeros
  exact ⟨hzeros, hinfinity, htrans _ _ _ hzeros hback, htext .empty, hunary .negate,
    htwo _ _ _ _ hzeros hinfinity .multiply⟩

end Lox
