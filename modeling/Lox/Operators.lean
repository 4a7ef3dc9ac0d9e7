import Lox.Tree
import Lox.Value

/-! What the operators do with values. -/
namespace Lox

def Literal.value : Literal → Value
  | nil => .nil
  | bool b => .bool b
  | number x => .number x
  | string s => .string s

def UnaryOp.apply : UnaryOp → Value → Except RuntimeFault Value
  | not, v => .ok (.bool !v.isTruthy)
  | negate, .number x => .ok (.number (-x))
  | negate, _ => .error .operandNotNumber

def onNumbers (f : Float → Float → Except RuntimeFault Value) :
    Value → Value → Except RuntimeFault Value
  | .number x, .number y => f x y
  | _, _ => .error .operandsNotNumbers

/-- Numbers are added; a string takes a string or a printed number on either side. -/
def Value.plus : Value → Value → Except RuntimeFault Value
  | number x, number y => .ok (.number (x + y))
  | string s, string t => .ok (.string (s ++ t))
  | string s, number y => .ok (.string (s ++ Number.printed.write y))
  | number x, string t => .ok (.string (Number.printed.write x ++ t))
  | _, _ => .error .operandsNotAddable

def StrictOp.apply : StrictOp → Value → Value → Except RuntimeFault Value
  | equal, v, w => .ok (.bool (v.equal w))
  | notEqual, v, w => .ok (.bool !v.equal w)
  | add, v, w => v.plus w
  | subtract, v, w => onNumbers (fun x y => .ok (.number (x - y))) v w
  | multiply, v, w => onNumbers (fun x y => .ok (.number (x * y))) v w
  | divide, v, w =>
    onNumbers (fun x y => if y == 0.0 then .error .divisionByZero else .ok (.number (x / y))) v w
  | less, v, w => onNumbers (fun x y => .ok (.bool (decide (x < y)))) v w
  | lessEqual, v, w => onNumbers (fun x y => .ok (.bool (decide (x ≤ y)))) v w
  | greater, v, w => onNumbers (fun x y => .ok (.bool (decide (y < x)))) v w
  | greaterEqual, v, w => onNumbers (fun x y => .ok (.bool (decide (y ≤ x)))) v w

end Lox
