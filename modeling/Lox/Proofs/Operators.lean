import Lox.Evaluation

/-! What the operators give: constants, the left operand as it is, or a fault about the operands. -/
namespace Lox

/-- Values that are no place in the heap. -/
def Value.IsPlain : Value → Prop
  | .bool _ | .number _ | .string _ => True
  | _ => False

/-- Faults of operands. -/
def RuntimeFault.IsOperand : RuntimeFault → Prop
  | .operandNotNumber | .operandsNotNumbers | .operandsNotAddable | .divisionByZero => True
  | _ => False

/-- The result is plain, or the fault is one of operands. -/
def IsOperation : Except RuntimeFault Value → Prop
  | .ok v => v.IsPlain
  | .error f => f.IsOperand

theorem UnaryOp.apply_isOperation (op : UnaryOp) (v : Value) : IsOperation (op.apply v) := by
  cases op with
  | not => trivial
  | negate => cases v <;> trivial

theorem onNumbers_isOperation {f : Float → Float → Except RuntimeFault Value}
    (hf : ∀ x y, IsOperation (f x y)) (v w : Value) : IsOperation (onNumbers f v w) := by
  unfold onNumbers
  split
  · exact hf _ _
  · trivial

theorem Value.plus_isOperation (v w : Value) : IsOperation (v.plus w) := by
  unfold Value.plus
  split <;> trivial

theorem StrictOp.apply_isOperation (op : StrictOp) (v w : Value) :
    IsOperation (op.apply v w) := by
  cases op with
  | equal | notEqual => trivial
  | add => exact v.plus_isOperation w
  | divide =>
    refine onNumbers_isOperation (fun x y => ?_) v w
    split <;> trivial
  | subtract | multiply | less | lessEqual | greater | greaterEqual =>
    exact onNumbers_isOperation (fun x y => by exact trivial) v w

theorem BinaryOp.settled?_eq {op : BinaryOp} {v w : Value} (h : op.settled? v = some w) :
    w = v := by
  cases op with
  | or | and =>
    simp only [settled?] at h
    split at h <;> cases h
    rfl
  | strict => cases h

end Lox
