import ConstantFlow.Expr
import ConstantFlow.Json
import ConstantFlow.Location

/-! The JSON form of locations, variables, operators and expressions. Locations and variables are records, which are
read from objects and not from arrays of their fields. A choice with content is an object of one field that names it; a
choice without content is its name. -/

namespace ConstantFlow

namespace Location

/-- The JSON form of a location, with its index. -/
def toJson (l : Location) : Json :=
  .object [("column", .nat l.column.toNat), ("expansion_index", .nat l.index.toNat), ("line", .nat l.line.toNat)]

/-- Reads a location; an index that is left out is 0. -/
def ofJson? (j : Json) : Option Location := do
  return {
    line := ← j.required Json.uint32? "line"
    column := ← j.required Json.uint32? "column"
    index := ← j.optional Json.uint32? 0 "expansion_index" }

end Location

namespace VarType

def name : VarType → String
  | .integer => "Integer"
  | .charPointer => "CharPointer"
  | .other => "Other"

def ofName? : String → Option VarType
  | "Integer" => some .integer
  | "CharPointer" => some .charPointer
  | "Other" => some .other
  | _ => none

end VarType

namespace Variable

def toJson (v : Variable) : Json := .object [("name", .text v.name), ("ty", .text v.type.name)]

def ofJson? (j : Json) : Option Variable := do
  return {
    name := ← j.required Json.text? "name"
    type := ← j.required (fun t => t.tag?.bind VarType.ofName?) "ty" }

end Variable

namespace UnaryOp

def name : UnaryOp → String
  | .neg => "Neg"
  | .not => "Not"
  | .bitNot => "BitNot"

def ofName? : String → Option UnaryOp
  | "Neg" => some .neg
  | "Not" => some .not
  | "BitNot" => some .bitNot
  | _ => none

def ofJson? (j : Json) : Option UnaryOp := j.tag?.bind ofName?

end UnaryOp

namespace BinaryOp

def name : BinaryOp → String
  | .add => "Add"
  | .sub => "Sub"
  | .mul => "Mul"
  | .div => "Div"
  | .rem => "Rem"
  | .shl => "Shl"
  | .shr => "Shr"
  | .bitAnd => "BitAnd"
  | .bitOr => "BitOr"
  | .bitXor => "BitXor"
  | .lt => "Lt"
  | .le => "Le"
  | .gt => "Gt"
  | .ge => "Ge"
  | .eq => "Eq"
  | .ne => "Ne"
  | .and => "And"
  | .or => "Or"

def ofName? : String → Option BinaryOp
  | "Add" => some .add
  | "Sub" => some .sub
  | "Mul" => some .mul
  | "Div" => some .div
  | "Rem" => some .rem
  | "Shl" => some .shl
  | "Shr" => some .shr
  | "BitAnd" => some .bitAnd
  | "BitOr" => some .bitOr
  | "BitXor" => some .bitXor
  | "Lt" => some .lt
  | "Le" => some .le
  | "Gt" => some .gt
  | "Ge" => some .ge
  | "Eq" => some .eq
  | "Ne" => some .ne
  | "And" => some .and
  | "Or" => some .or
  | _ => none

def ofJson? (j : Json) : Option BinaryOp := j.tag?.bind ofName?

end BinaryOp

namespace CompoundOp

/-- An assigning operator has the name of the operator it applies. -/
def name (op : CompoundOp) : String := op.binary.name

def ofName? : String → Option CompoundOp
  | "Add" => some .add
  | "Sub" => some .sub
  | "Mul" => some .mul
  | "Div" => some .div
  | "Rem" => some .rem
  | "Shl" => some .shl
  | "Shr" => some .shr
  | "BitAnd" => some .bitAnd
  | "BitOr" => some .bitOr
  | "BitXor" => some .bitXor
  | _ => none

def ofJson? (j : Json) : Option CompoundOp := j.tag?.bind ofName?

end CompoundOp

namespace Expr

mutual

def toJson : Expr → Json
  | .int n => .object [("IntLiteral", .integer n.toInt)]
  | .text s => .object [("StringLiteral", .text s)]
  | .read v => .object [("Variable", v.toJson)]
  | .address v => .object [("AddressOf", v.toJson)]
  | .unary op a => .object [("Unary", .array [.text op.name, a.toJson])]
  | .binary op a b => .object [("Binary", .array [.text op.name, a.toJson, b.toJson])]
  | .choice c a b => .object [("Conditional", .array [c.toJson, a.toJson, b.toJson])]
  | .call f arguments => .object [("Call", .array [.text f, .array (toJsonAll arguments)])]
  | .unknown => .text "Opaque"

def toJsonAll : List Expr → List Json
  | [] => []
  | a :: rest => a.toJson :: toJsonAll rest

end

mutual

def ofJson? : Json → Option Expr
  | .object [("IntLiteral", n)] => n.int64?.map .int
  | .object [("StringLiteral", s)] => s.text?.map .text
  | .object [("Variable", v)] => (Variable.ofJson? v).map .read
  | .object [("AddressOf", v)] => (Variable.ofJson? v).map .address
  | .object [("Unary", .array [op, a])] => do
    return .unary (← UnaryOp.ofJson? op) (← ofJson? a)
  | .object [("Binary", .array [op, a, b])] => do
    return .binary (← BinaryOp.ofJson? op) (← ofJson? a) (← ofJson? b)
  | .object [("Conditional", .array [c, a, b])] => do
    return .choice (← ofJson? c) (← ofJson? a) (← ofJson? b)
  | .object [("Call", .array [f, .array arguments])] => do
    return .call (← f.text?) (← ofJsonAll? arguments)
  | .object [("Opaque", .null)] => some .unknown
  | .text "Opaque" => some .unknown
  | _ => none

def ofJsonAll? : List Json → Option (List Expr)
  | [] => some []
  | a :: rest => do
    return (← ofJson? a) :: (← ofJsonAll? rest)

end

end Expr
end ConstantFlow
