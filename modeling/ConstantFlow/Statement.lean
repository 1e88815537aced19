import ConstantFlow.Expr
import ConstantFlow.Location

/-! Statements of a block. Only the forms that can change a variable are told apart. -/

namespace ConstantFlow

structure Argument where
  value : Expr
  /-- Where the argument starts. -/
  location : Location
  /-- Whether the callee receives a mutable reference. -/
  byReference : Bool := false
deriving DecidableEq, Repr

/-- The variables that the callee may write through an argument: a variable passed by reference, or every variable
whose address occurs in the argument. -/
def Argument.writable (a : Argument) : List Variable :=
  match a.value with
  | .read v => if a.byReference then [v] else []
  | e => e.addressed true

inductive Statement where
  /-- A declaration, with its initial value if it has one. -/
  | declare (target : Variable) (initial : Option Expr) (location : Location)
  | assign (target : Variable) (value : Expr) (location : Location)
  /-- An assigning operator such as `+=`. -/
  | combine (target : Variable) (op : CompoundOp) (value : Expr) (location : Location)
  /-- A call; what the callee writes holds from `finish` on. -/
  | call (callee : String) (arguments : List Argument) (location finish : Location)
  | other (location : Location)
deriving DecidableEq, Repr

namespace Statement

/-- Where the statement starts. -/
def location : Statement → Location
  | .declare _ _ l | .assign _ _ l | .combine _ _ _ l | .call _ _ l _ | .other l => l

/-- Where the changes of the statement are recorded: the end of a call, and the start of any other statement. -/
def updateLocation : Statement → Location
  | .call _ _ _ finish => finish
  | s => s.location

end Statement
end ConstantFlow
