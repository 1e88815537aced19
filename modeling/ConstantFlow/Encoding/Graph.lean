import ConstantFlow.Encoding.Expr
import ConstantFlow.Graph

/-! The JSON form of arguments, statements, blocks and graphs. Every field is written; a reader accepts fields in any
order, passes over fields it does not know, and fills in those that may be left out. It does not accept an array in
place of an object with fields. -/

namespace ConstantFlow

namespace Argument

def toJson (a : Argument) : Json :=
  .object [("by_reference", .bool a.byReference), ("location", a.location.toJson), ("value", a.value.toJson)]

/-- Reads an argument, which is passed by value unless it says otherwise. -/
def ofJson? (j : Json) : Option Argument := do
  return {
    value := ← j.required Expr.ofJson? "value"
    location := ← j.required Location.ofJson? "location"
    byReference := ← j.optional Json.bool? false "by_reference" }

end Argument

namespace Statement

/-- The JSON form of a statement; a missing initial value is null. -/
def toJson : Statement → Json
  | .declare target initial location =>
    .object [("Declaration", .object [("initializer", (initial.map Expr.toJson).getD .null),
      ("location", location.toJson), ("variable", target.toJson)])]
  | .assign target value location =>
    .object [("Assignment", .object [("location", location.toJson), ("target", target.toJson),
      ("value", value.toJson)])]
  | .combine target op value location =>
    .object [("CompoundAssignment", .object [("location", location.toJson), ("op", .text op.name),
      ("target", target.toJson), ("value", value.toJson)])]
  | .call callee arguments location finish =>
    .object [("Call", .object [("arguments", .array (arguments.map Argument.toJson)), ("callee", .text callee),
      ("end_location", finish.toJson), ("location", location.toJson)])]
  | .other location => .object [("Other", .object [("location", location.toJson)])]

/-- Reads a statement; an initial value that is left out or null is missing. -/
def ofJson? : Json → Option Statement
  | .object [("Declaration", j)] => do
    return .declare (← j.required Variable.ofJson? "variable")
      (← j.optional (Json.orNull? Expr.ofJson?) none "initializer") (← j.required Location.ofJson? "location")
  | .object [("Assignment", j)] => do
    return .assign (← j.required Variable.ofJson? "target") (← j.required Expr.ofJson? "value")
      (← j.required Location.ofJson? "location")
  | .object [("CompoundAssignment", j)] => do
    return .combine (← j.required Variable.ofJson? "target") (← j.required CompoundOp.ofJson? "op")
      (← j.required Expr.ofJson? "value") (← j.required Location.ofJson? "location")
  | .object [("Call", j)] => do
    return .call (← j.required Json.text? "callee") (← j.required (Json.list? Argument.ofJson?) "arguments")
      (← j.required Location.ofJson? "location") (← j.required Location.ofJson? "end_location")
  | .object [("Other", j)] => do
    return .other (← j.required Location.ofJson? "location")
  | _ => none

end Statement

namespace BlockId

def toJson (b : BlockId) : Json := .nat b.index

def ofJson? (j : Json) : Option BlockId := j.uint32?.map BlockId.mk

end BlockId

namespace Block

/-- An edge end, with null for an edge that is never taken. -/
def endToJson : Option BlockId → Json
  | none => .null
  | some b => b.toJson

def toJson (b : Block) : Json :=
  .object [("id", b.id.toJson), ("predecessors", .array (b.predecessors.map endToJson)),
    ("statements", .array (b.statements.map Statement.toJson)),
    ("successors", .array (b.successors.map endToJson))]

/-- Reads a block, all of whose fields have to be there. -/
def ofJson? (j : Json) : Option Block := do
  return {
    id := ← j.required BlockId.ofJson? "id"
    statements := ← j.required (Json.list? Statement.ofJson?) "statements"
    predecessors := ← j.required (Json.list? (Json.orNull? BlockId.ofJson?)) "predecessors"
    successors := ← j.required (Json.list? (Json.orNull? BlockId.ofJson?)) "successors" }

end Block

namespace Graph

/-- The JSON form of a graph; a missing entry is null. -/
def toJson (g : Graph) : Json :=
  .object [("blocks", .array (g.blocks.map Block.toJson)), ("entry", Block.endToJson g.entry),
    ("function_id", .text g.functionId)]

/-- Reads a graph; an entry that is left out or null is missing. -/
def ofJson? (j : Json) : Option Graph := do
  return {
    functionId := ← j.required Json.text? "function_id"
    entry := ← j.optional (Json.orNull? BlockId.ofJson?) none "entry"
    blocks := ← j.required (Json.list? Block.ofJson?) "blocks" }

end Graph
end ConstantFlow
