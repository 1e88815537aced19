import ConstantFlow.Encoding.Expr
import ConstantFlow.History

/-! The JSON form of constants, facts, entries, states and histories. An entry is a record, and is read from an object
only. -/

namespace ConstantFlow

namespace Kind

/-- The JSON form of a constant: a number or a text. -/
def valueToJson : (k : Kind) → k.Value → Json
  | .integer, n => .integer n.toInt
  | .text, s => .text s

def valueOfJson? : (k : Kind) → Json → Option k.Value
  | .integer, j => j.int64?
  | .text, j => j.text?

end Kind

namespace Fact

def toJson (k : Kind) : Fact k.Value → Json
  | .unresolved => .text "Unresolved"
  | .resolved value => .object [("Resolved", k.valueToJson value)]

def ofJson? (k : Kind) : Json → Option (Fact k.Value)
  | .text "Unresolved" => some .unresolved
  | .object [("Unresolved", .null)] => some .unresolved
  | .object [("Resolved", j)] => (k.valueOfJson? j).map .resolved
  | _ => none

/-- The JSON form of a fact that may be missing: null stands for no answer. -/
def optionToJson (k : Kind) : Option (Fact k.Value) → Json
  | none => .null
  | some fact => fact.toJson k

end Fact

namespace Entry

def toJson {k : Kind} (e : Entry k) : Json :=
  .object [("location", e.location.toJson), ("provenance", .text e.origin.name), ("value", e.fact.toJson k)]

def ofJson? (k : Kind) (j : Json) : Option (Entry k) := do
  return {
    location := ← j.required Location.ofJson? "location"
    origin := ← j.required (fun t => t.tag?.bind Origin.ofName?) "provenance"
    fact := ← j.required (Fact.ofJson? k) "value" }

end Entry

namespace State

/-- The JSON form of a state: an object with a field for each name. -/
def toJson {k : Kind} (s : State k) : Json := .object (s.toList.map fun p => (p.1, p.2.toJson k))

def ofJson? (k : Kind) : Json → Option (State k)
  | .object fields => (fields.mapM fun p => (Fact.ofJson? k p.2).map fun fact => (p.1, fact)).map Table.ofList
  | _ => none

end State

/-- The JSON form of a history: the entries of each variable, by name. -/
def History.toJson {k : Kind} (h : History k) : Json :=
  .object (h.tracks.toList.map fun p => (p.1, .array (p.2.entries.map Entry.toJson)))

end ConstantFlow
