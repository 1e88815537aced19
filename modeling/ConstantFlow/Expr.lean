import ConstantFlow.Operator

/-! Expressions, reduced to what folding needs: literals, reads, addresses, operators, choices and calls. Main
notions: the constant an expression folds to, and the variables whose address an expression hands to a call. -/

namespace ConstantFlow

/-- What the analysis distinguishes about a variable's declared type. -/
inductive VarType where
  /-- Any integral type. -/
  | integer
  /-- A pointer to characters: a text. -/
  | charPointer
  | other
deriving DecidableEq, Repr

structure Variable where
  name : String
  type : VarType
deriving DecidableEq, Repr

inductive Expr where
  | int (value : Int64)
  | text (value : String)
  /-- The value of a variable. -/
  | read (target : Variable)
  /-- The address of a variable. -/
  | address (target : Variable)
  | unary (op : UnaryOp) (operand : Expr)
  | binary (op : BinaryOp) (left right : Expr)
  /-- One of two values, by whether the condition differs from zero. -/
  | choice (condition yes no : Expr)
  | call (callee : String) (arguments : List Expr)
  /-- An expression of which nothing is known. -/
  | unknown
deriving Repr

namespace Expr

mutual

/-- Whether two expressions are the same tree. -/
def same : Expr → Expr → Bool
  | .int m, .int n => m = n
  | .text s, .text t => s = t
  | .read v, .read w => v = w
  | .address v, .address w => v = w
  | .unary o a, .unary p b => o = p && same a b
  | .binary o a b, .binary p c d => o = p && same a c && same b d
  | .choice a b c, .choice d e f => same a d && same b e && same c f
  | .call f as, .call g bs => f = g && sameAll as bs
  | .unknown, .unknown => true
  | _, _ => false

def sameAll : List Expr → List Expr → Bool
  | [], [] => true
  | a :: as, b :: bs => same a b && sameAll as bs
  | _, _ => false

end

mutual

theorem same_iff : (a b : Expr) → (same a b = true ↔ a = b)
  | .int _, b => by cases b <;> simp [same]
  | .text _, b => by cases b <;> simp [same]
  | .read _, b => by cases b <;> simp [same]
  | .address _, b => by cases b <;> simp [same]
  | .unary _ a, b => by cases b <;> simp [same, same_iff a]
  | .binary _ a c, b => by cases b <;> simp [same, same_iff a, same_iff c, and_assoc]
  | .choice a c d, b => by cases b <;> simp [same, same_iff a, same_iff c, same_iff d, and_assoc]
  | .call _ as, b => by cases b <;> simp [same, sameAll_iff as]
  | .unknown, b => by cases b <;> simp [same]

theorem sameAll_iff : (as bs : List Expr) → (sameAll as bs = true ↔ as = bs)
  | [], bs => by cases bs <;> simp [sameAll]
  | a :: as, bs => by cases bs <;> simp [sameAll, same_iff a, sameAll_iff as]

end

instance : DecidableEq Expr := fun a b => decidable_of_iff _ (same_iff a b)

/-- The integer an expression folds to. The logical operators stop at the operand that decides them, and of a choice
only the chosen side counts; reads, addresses, calls and texts are no integers. -/
def foldInt : Expr → Option Int64
  | .int n => some n
  | .unary op a => (foldInt a).bind op.apply
  | .binary .and a b =>
    (foldInt a).bind fun x => if x = 0 then some 0 else (foldInt b).map fun y => truth (y ≠ 0)
  | .binary .or a b =>
    (foldInt a).bind fun x => if x ≠ 0 then some 1 else (foldInt b).map fun y => truth (y ≠ 0)
  | .binary op a b => (foldInt a).bind fun x => (foldInt b).bind fun y => op.apply x y
  | .choice c a b => (foldInt c).bind fun x => if x ≠ 0 then foldInt a else foldInt b
  | _ => none

/-- The text an expression folds to: a literal, or the side of a choice that a folding condition picks. -/
def foldText : Expr → Option String
  | .text s => some s
  | .choice c a b => (foldInt c).bind fun x => if x ≠ 0 then foldText a else foldText b
  | _ => none

mutual

/-- The variables whose address is taken inside a call, left to right with repeats. `inCall` says whether the
expression itself stands inside a call. -/
def addressed (inCall : Bool) : Expr → List Variable
  | .address v => if inCall then [v] else []
  | .unary _ a => addressed inCall a
  | .binary _ a b => addressed inCall a ++ addressed inCall b
  | .choice c a b => addressed inCall c ++ addressed inCall a ++ addressed inCall b
  | .call _ args => addressedAll args
  | _ => []

/-- The variables whose address is taken in the arguments of a call. -/
def addressedAll : List Expr → List Variable
  | [] => []
  | a :: rest => addressed true a ++ addressedAll rest

end

/-- The variables whose address reaches a call inside the expression, left to right with repeats. -/
def escaping (e : Expr) : List Variable := addressed false e

end Expr
end ConstantFlow
