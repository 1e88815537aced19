/-! Operators on 64-bit integers. An operator has a value only where its result is a well-defined constant:
sums, differences, products, negations and quotients must fit a word, divisors differ from zero, and shift
amounts lie between 0 and 63. -/

namespace ConstantFlow

inductive UnaryOp where
  | neg | not | bitNot
deriving DecidableEq, Repr

inductive BinaryOp where
  | add | sub | mul | div | rem | shl | shr | bitAnd | bitOr | bitXor
  | lt | le | gt | ge | eq | ne | and | or
deriving DecidableEq, Repr

/-- The operators that have an assigning form, such as `+=` and `<<=`. -/
inductive CompoundOp where
  | add | sub | mul | div | rem | shl | shr | bitAnd | bitOr | bitXor
deriving DecidableEq, Repr

/-- The word that holds an integer, if one does: words go from -2^63 to 2^63 - 1. -/
def fit? (n : Int) : Option Int64 :=
  if -9223372036854775808 ≤ n ∧ n < 9223372036854775808 then some (Int64.ofInt n) else none

/-- A truth value as a word: 1 or 0. -/
def truth (b : Bool) : Int64 := if b then 1 else 0

/-- The shift amount held by a word: defined from 0 to 63. -/
def shiftAmount? (n : Int64) : Option Nat :=
  if 0 ≤ n.toInt ∧ n.toInt < 64 then some n.toInt.toNat else none

def UnaryOp.apply : UnaryOp → Int64 → Option Int64
  | .neg, a => fit? (-a.toInt)
  | .not, a => some (truth (a = 0))
  | .bitNot, a => some (~~~a)

/-- The value of a binary operator on two words. Division goes toward zero, and the remainder is defined where the
quotient is. A left shift drops the bits that leave the word; a right shift keeps the sign. -/
def BinaryOp.apply : BinaryOp → Int64 → Int64 → Option Int64
  | .add, a, b => fit? (a.toInt + b.toInt)
  | .sub, a, b => fit? (a.toInt - b.toInt)
  | .mul, a, b => fit? (a.toInt * b.toInt)
  | .div, a, b => if b = 0 then none else fit? (a.toInt.tdiv b.toInt)
  | .rem, a, b =>
    if b = 0 then none
    else (fit? (a.toInt.tdiv b.toInt)).bind fun _ => fit? (a.toInt.tmod b.toInt)
  | .shl, a, b => (shiftAmount? b).map fun n => Int64.ofInt (a.toInt * Int.pow 2 n)
  | .shr, a, b => (shiftAmount? b).map fun n => Int64.ofInt (a.toInt / Int.pow 2 n)
  | .bitAnd, a, b => some (a &&& b)
  | .bitOr, a, b => some (a ||| b)
  | .bitXor, a, b => some (a ^^^ b)
  | .lt, a, b => some (truth (a < b))
  | .le, a, b => some (truth (a ≤ b))
  | .gt, a, b => some (truth (b < a))
  | .ge, a, b => some (truth (b ≤ a))
  | .eq, a, b => some (truth (a = b))
  | .ne, a, b => some (truth (a ≠ b))
  | .and, a, b => some (truth (a ≠ 0 ∧ b ≠ 0))
  | .or, a, b => some (truth (a ≠ 0 ∨ b ≠ 0))

/-- The operator that an assigning form applies. -/
def CompoundOp.binary : CompoundOp → BinaryOp
  | .add => .add
  | .sub => .sub
  | .mul => .mul
  | .div => .div
  | .rem => .rem
  | .shl => .shl
  | .shr => .shr
  | .bitAnd => .bitAnd
  | .bitOr => .bitOr
  | .bitXor => .bitXor

end ConstantFlow
