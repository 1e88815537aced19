import ConstantFlow.Operator
import ConstantFlow.Table

/-! JSON values, and readers for their simple forms. An object keeps its fields in the order in which they are
written, and a field is found by its name. A record is read from an object alone: an array of its fields in the order
of their declaration, which would say as much, is refused. -/

namespace ConstantFlow

inductive Json where
  | null
  | bool (value : Bool)
  | integer (value : Int)
  /-- A number that is not written as an integer: `digits` divided by ten to the power `places`. -/
  | decimal (digits : Int) (places : Nat)
  | text (value : String)
  | array (items : List Json)
  | object (fields : List (String × Json))
deriving Repr, Inhabited

namespace Json

def nat (n : Nat) : Json := .integer n

/-- The field of an object. Nothing else has fields, an array of their values included. -/
def field? (name : String) : Json → Option Json
  | .object fields => valueOf? name fields
  | _ => none

/-- Reads a field that has to be there. -/
def required {α : Type} (read? : Json → Option α) (name : String) (j : Json) : Option α :=
  (j.field? name).bind read?

/-- Reads a field that stands for `default` where it is left out. -/
def optional {α : Type} (read? : Json → Option α) (default : α) (name : String) (j : Json) : Option α :=
  match j.field? name with
  | none => some default
  | some value => read? value

/-- Reads a value, or null for none. -/
def orNull? {α : Type} (read? : Json → Option α) : Json → Option (Option α)
  | .null => some none
  | j => (read? j).map some

def bool? : Json → Option Bool
  | .bool b => some b
  | _ => none

def text? : Json → Option String
  | .text s => some s
  | _ => none

def integer? : Json → Option Int
  | .integer n => some n
  | _ => none

/-- Reads a natural number below a bound. -/
def below? (bound : Nat) (j : Json) : Option Nat :=
  j.integer?.bind fun n => if 0 ≤ n ∧ n < bound then some n.toNat else none

def int64? (j : Json) : Option Int64 := j.integer?.bind fit?

def uint32? (j : Json) : Option UInt32 := (j.below? UInt32.size).map UInt32.ofNat

def uint64? (j : Json) : Option UInt64 := (j.below? UInt64.size).map UInt64.ofNat

def list? {α : Type} (read? : Json → Option α) : Json → Option (List α)
  | .array items => items.mapM read?
  | _ => none

/-- Reads the name of a choice without content, written as a text or as the one field of an object with null. -/
def tag? : Json → Option String
  | .text tag => some tag
  | .object [(tag, .null)] => some tag
  | _ => none

end Json
end ConstantFlow
