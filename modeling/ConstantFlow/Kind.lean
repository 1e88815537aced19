import ConstantFlow.Expr

/-! The two kinds of constant that can be propagated: 64-bit integers and texts. A kind says which variables it
tracks, which expressions are constants of it, and how its constants are written. -/

namespace ConstantFlow

inductive Kind where
  | integer | text
deriving DecidableEq, Repr

namespace Kind

/-- The constants of a kind. -/
abbrev Value : Kind → Type
  | .integer => Int64
  | .text => String

instance : (k : Kind) → DecidableEq k.Value
  | .integer => inferInstanceAs (DecidableEq Int64)
  | .text => inferInstanceAs (DecidableEq String)

/-- Integers in numeric order, texts by code points. -/
instance : (k : Kind) → LT k.Value
  | .integer => inferInstanceAs (LT Int64)
  | .text => inferInstanceAs (LT String)

instance : (k : Kind) → DecidableLT k.Value
  | .integer => inferInstanceAs (DecidableLT Int64)
  | .text => inferInstanceAs (DecidableLT String)

theorem lt_irrefl : {k : Kind} → (a : k.Value) → ¬ a < a
  | .integer, _ => Int64.lt_irrefl
  | .text, a => String.lt_irrefl a

theorem lt_trans : {k : Kind} → {a b c : k.Value} → a < b → b < c → a < c
  | .integer, _, _, _ => Int64.lt_trans
  | .text, _, _, _ => String.lt_trans

theorem lt_trichotomy : {k : Kind} → (a b : k.Value) → a < b ∨ a = b ∨ b < a
  | .integer, a, b => Std.lt_trichotomy (α := Int64) a b
  | .text, a, b => Std.lt_trichotomy (α := String) a b

/-- The name of a kind in messages and exports. -/
def name : Kind → String
  | .integer => "integer"
  | .text => "string"

/-- Whether variables of a type are tracked. -/
def tracks : Kind → VarType → Bool
  | .integer, .integer => true
  | .text, .charPointer => true
  | _, _ => false

/-- The constant an expression folds to. -/
def fold : (k : Kind) → Expr → Option k.Value
  | .integer, e => e.foldInt
  | .text, e => e.foldText

/-- The constant left by an assigning operator; texts have none. -/
def combine : (k : Kind) → CompoundOp → k.Value → k.Value → Option k.Value
  | .integer, op, a, b => op.binary.apply a b
  | .text, _, _, _ => none

/-- The written form of a constant: a decimal integer, or the text itself. -/
def format : (k : Kind) → k.Value → String
  | .integer, n => n.toInt.repr
  | .text, s => s

end Kind
end ConstantFlow
