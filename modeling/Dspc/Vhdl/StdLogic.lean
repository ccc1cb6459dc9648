import Mathlib.Logic.Basic
import Mathlib.Tactic.Common

namespace Dspc.Vhdl

/-- The nine values of `std_ulogic`, in the order of its declaration. -/
inductive StdLogic
  | U | X | zero | one | Z | W | L | H | dontCare
  deriving DecidableEq, Repr

namespace StdLogic

def toX01 : StdLogic → StdLogic
  | .zero | .L => .zero
  | .one | .H => .one
  | _ => .X

/-- `and_table`: a forcing or weak zero absorbs everything, even 'U'. -/
protected def and : StdLogic → StdLogic → StdLogic
  | .zero, _ | .L, _ | _, .zero | _, .L => .zero
  | .U, _ | _, .U => .U
  | .one, .one | .one, .H | .H, .one | .H, .H => .one
  | _, _ => .X

protected def xor : StdLogic → StdLogic → StdLogic
  | .U, _ | _, .U => .U
  | a, b =>
    match a.toX01, b.toX01 with
    | .zero, .zero | .one, .one => .zero
    | .zero, .one | .one, .zero => .one
    | _, _ => .X

protected def not : StdLogic → StdLogic
  | .U => .U
  | .zero | .L => .one
  | .one | .H => .zero
  | _ => .X

def toBool? : StdLogic → Option Bool
  | .zero | .L => some false
  | .one | .H => some true
  | _ => none

def ofBool (b : Bool) : StdLogic := if b then .one else .zero

@[simp] theorem ofBool_eq_one {b : Bool} : ofBool b = .one ↔ b = true := by
  cases b <;> decide

@[simp] theorem toBool?_ofBool (b : Bool) : (ofBool b).toBool? = some b := by
  cases b <;> rfl

theorem ofBool_injective {a b : Bool} (same : ofBool a = ofBool b) : a = b := by
  have both := congrArg toBool? same
  simpa using both

@[simp] theorem and_ofBool (a b : Bool) : (ofBool a).and (ofBool b) = ofBool (a && b) := by
  cases a <;> cases b <;> rfl

@[simp] theorem xor_ofBool (a b : Bool) : (ofBool a).xor (ofBool b) = ofBool (a ^^ b) := by
  cases a <;> cases b <;> rfl

@[simp] theorem not_ofBool (a : Bool) : (ofBool a).not = ofBool (!a) := by
  cases a <;> rfl

end StdLogic

end Dspc.Vhdl
