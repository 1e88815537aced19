import ConstantFlow.Expr

/-! Evaluation of expressions, and folding as the part of it that needs no surroundings. Evaluation goes from left to
right and only where it must: the logical operators stop at an operand that decides them, and one side of a choice is
left out. What an expression takes from its surroundings comes from an environment. An expression folds exactly if its
evaluation meets no leaves but literals, and then the evaluation does nothing to the surroundings. -/

namespace ConstantFlow

/-- What a unary operator makes of its operand. The least word has no negation. -/
def UnaryOp.result? : UnaryOp → Int64 → Option Int64
  | .neg, x => if x = Int64.minValue then none else some (-x)
  | .not, x => some (if x = 0 then 1 else 0)
  | .bitNot, x => some (~~~x)

namespace BinaryOp

/-- The result that the left operand of a logical operator settles alone. -/
def decided? : BinaryOp → Int64 → Option Int64
  | .and, x => if x = 0 then some 0 else none
  | .or, x => if x = 0 then none else some 1
  | _, _ => none

/-- What a binary operator makes of both operands. A logical operator that has come to its right operand is settled by
it, and comparisons are 1 or 0; the others are operations on words. -/
def outcome? : BinaryOp → Int64 → Int64 → Option Int64
  | .and, _, b | .or, _, b => some (if b = 0 then 0 else 1)
  | .eq, a, b => some (if a = b then 1 else 0)
  | .ne, a, b => some (if a = b then 0 else 1)
  | .lt, a, b => some (if a < b then 1 else 0)
  | .gt, a, b => some (if b < a then 1 else 0)
  | .le, a, b => some (if a ≤ b then 1 else 0)
  | .ge, a, b => some (if b ≤ a then 1 else 0)
  | op, a, b => op.apply a b

end BinaryOp

namespace Expr

inductive Value where
  | int (n : Int64)
  | text (s : String)
deriving DecidableEq

def Value.int? : Value → Option Int64
  | .int n => some n
  | .text _ => none

/-- What surrounds an expression, with states in `σ`: the values of variables and addresses, and what unknown
expressions and calls return and leave behind, if they come to an end. -/
structure Environment (σ : Type) where
  read : Variable → σ → Value
  address : Variable → σ → Value
  unknown : σ → Option (Value × σ)
  call : String → List Value → σ → Option (Value × σ)

/-- How an evaluation ends: with a value, in a state, and after the leaves that it met, in their order. -/
structure Outcome (σ : Type) where
  value : Value
  state : σ
  leaves : List Expr
deriving DecidableEq

namespace Outcome
variable {σ : Type}

/-- The end of an operation, which meets no leaves of its own. -/
def done (state : σ) (n : Int64) : Outcome σ := ⟨.int n, state, []⟩

/-- Goes on with the integer that an operand came to; a text is no operand. -/
def thenInt (operand : Option (Outcome σ)) (next : Int64 → σ → Option (Outcome σ)) : Option (Outcome σ) :=
  operand.bind fun x => x.value.int?.bind fun n =>
    (next n x.state).map fun y => { y with leaves := x.leaves ++ y.leaves }

theorem thenInt_some (n : Int64) (s : σ) (leaves : List Expr) (next : Int64 → σ → Option (Outcome σ)) :
    thenInt (some ⟨.int n, s, leaves⟩) next = (next n s).map fun y => { y with leaves := leaves ++ y.leaves } := rfl

theorem thenInt_eq_some {operand : Option (Outcome σ)} {next : Int64 → σ → Option (Outcome σ)} {x : Outcome σ}
    (h : thenInt operand next = some x) :
    ∃ n t leaves y, operand = some ⟨.int n, t, leaves⟩ ∧ next n t = some y ∧
      x = ⟨y.value, y.state, leaves ++ y.leaves⟩ := by
  obtain ⟨⟨value, t, leaves⟩, rfl, hvalue⟩ := Option.bind_eq_some_iff.1 h
  cases value with
  | int n =>
      obtain ⟨y, hy, rfl⟩ := Option.map_eq_some_iff.1 hvalue
      exact ⟨n, t, leaves, y, rfl, hy, rfl⟩
  | text s => cases hvalue

end Outcome

namespace Environment
variable {σ : Type}
open Outcome

mutual

/-- Evaluates an expression in a state. There is no outcome where an operation is undefined. -/
def eval (env : Environment σ) : Expr → σ → Option (Outcome σ)
  | .int n, s => some ⟨.int n, s, [.int n]⟩
  | .text t, s => some ⟨.text t, s, [.text t]⟩
  | .read v, s => some ⟨env.read v s, s, [.read v]⟩
  | .address v, s => some ⟨env.address v s, s, [.address v]⟩
  | .unary op a, s => thenInt (eval env a s) fun x t => (op.result? x).map (done t)
  | .binary op a b, s => thenInt (eval env a s) fun x t =>
    ((op.decided? x).map (done t)).or (thenInt (eval env b t) fun y u => (op.outcome? x y).map (done u))
  | .choice c a b, s => thenInt (eval env c s) fun x t => if x ≠ 0 then eval env a t else eval env b t
  | .call f args, s => (evalAll env args s).bind fun r =>
    (env.call f r.1 r.2.1).map fun p => ⟨p.1, p.2, r.2.2 ++ [.call f args]⟩
  | .unknown, s => (env.unknown s).map fun p => ⟨p.1, p.2, [.unknown]⟩

def evalAll (env : Environment σ) : List Expr → σ → Option (List Value × σ × List Expr)
  | [], s => some ([], s, [])
  | a :: rest, s => (eval env a s).bind fun x =>
    (evalAll env rest x.state).map fun r => (x.value :: r.1, r.2.1, x.leaves ++ r.2.2)

end

end Environment

def isInt : Expr → Bool
  | .int _ => true
  | _ => false

def isLiteral : Expr → Bool
  | .int _ | .text _ => true
  | _ => false

/-- Whether an expression is evaluated as a whole, at one place. -/
def isLeaf : Expr → Bool
  | .unary _ _ | .binary _ _ _ | .choice _ _ _ => false
  | _ => true

def FoldsTo (e : Expr) : Value → Prop
  | .int n => e.foldInt = some n
  | .text s => e.foldText = some s

/-- The side of a choice that a condition picks. -/
def picked (x : Int64) (yes no : Expr) : Expr := if x ≠ 0 then yes else no

/-- Induction over operators and choices, down to the leaves. -/
theorem operatorInduction {P : Expr → Prop} (leaf : ∀ e, e.isLeaf = true → P e)
    (unary : ∀ op a, P a → P (.unary op a)) (binary : ∀ op a b, P a → P b → P (.binary op a b))
    (choice : ∀ c a b, P c → (∀ x, P (picked x a b)) → P (.choice c a b)) : ∀ e, P e
  | .int _ | .text _ | .read _ | .address _ | .call _ _ | .unknown => leaf _ rfl
  | .unary op a => unary op a (operatorInduction leaf unary binary choice a)
  | .binary op a b =>
    binary op a b (operatorInduction leaf unary binary choice a) (operatorInduction leaf unary binary choice b)
  | .choice c a b => by
    refine choice c a b (operatorInduction leaf unary binary choice c) fun x => ?_
    unfold picked
    split
    · exact operatorInduction leaf unary binary choice a
    · exact operatorInduction leaf unary binary choice b

theorem fit?_neg (x : Int64) : fit? (-x.toInt) = if x = Int64.minValue then none else some (-x) := by
  by_cases hx : x = Int64.minValue
  · subst hx
    decide
  · have hleast : x.toInt ≠ -9223372036854775808 := fun h => hx (Int64.toInt_inj.1 h)
    have hlow := x.le_toInt
    have hhigh := x.toInt_lt
    rw [fit?, if_pos (by omega), if_neg hx, Int64.ofInt_neg, Int64.ofInt_toInt]

theorem truth_decide (p : Prop) [Decidable p] : truth (decide p) = if p then 1 else 0 := by
  simp [truth]

theorem foldInt_unary (op : UnaryOp) (a : Expr) : (Expr.unary op a).foldInt = a.foldInt.bind op.result? := by
  rw [foldInt]
  congr 1
  funext x
  cases op with
  | neg => exact fit?_neg x
  | not => exact congrArg some (truth_decide (x = 0))
  | bitNot => rfl

theorem foldInt_binary (op : BinaryOp) (a b : Expr) :
    (Expr.binary op a b).foldInt =
      a.foldInt.bind fun x => (op.decided? x).or (b.foldInt.bind fun y => op.outcome? x y) := by
  have hright : (b.foldInt.map fun y => truth (y ≠ 0)) = b.foldInt.bind fun y => some (if y = 0 then 0 else 1) := by
    cases b.foldInt with
    | none => rfl
    | some y => by_cases hy : y = 0 <;> simp [truth, hy]
  cases op with
  | and | or =>
      rw [foldInt, hright]
      congr 1
      funext x
      by_cases hx : x = 0 <;> simp [BinaryOp.decided?, BinaryOp.outcome?, hx]
  | lt | le | gt | ge | eq | ne =>
      simp [foldInt, BinaryOp.decided?, BinaryOp.outcome?, BinaryOp.apply, truth]
  | _ => rfl

theorem foldInt_choice (c a b : Expr) :
    (Expr.choice c a b).foldInt = c.foldInt.bind fun x => (picked x a b).foldInt := by
  simp only [foldInt, picked, apply_ite foldInt]

theorem foldText_choice (c a b : Expr) :
    (Expr.choice c a b).foldText = c.foldInt.bind fun x => (picked x a b).foldText := by
  simp only [foldText, picked, apply_ite foldText]

section Folding
variable {σ : Type} {env : Environment σ} {e : Expr} {s : σ} {x : Outcome σ}
open Outcome

theorem eval_choice (c a b : Expr) :
    env.eval (.choice c a b) s = thenInt (env.eval c s) fun x t => env.eval (picked x a b) t := by
  rw [Environment.eval]
  congr 1
  funext x t
  exact (apply_ite (env.eval · t) (x ≠ 0) a b).symm

/-- A folded integer is evaluated from integer literals alone, and the state stays. -/
theorem eval_of_foldInt (env : Environment σ) (s : σ) {n : Int64} (h : e.foldInt = some n) :
    ∃ leaves, env.eval e s = some ⟨.int n, s, leaves⟩ ∧ ∀ leaf ∈ leaves, leaf.isInt = true := by
  induction e using operatorInduction generalizing n with
  | leaf e hleaf =>
      cases e with
      | int m =>
          obtain rfl := Option.some.inj h
          exact ⟨[.int m], rfl, by simp [isInt]⟩
      | unary op a => cases hleaf
      | binary op a b => cases hleaf
      | choice c a b => cases hleaf
      | _ => cases h
  | unary op a iha =>
      rw [foldInt_unary] at h
      obtain ⟨x, hx, happly⟩ := Option.bind_eq_some_iff.1 h
      obtain ⟨leaves, heval, hints⟩ := iha hx
      refine ⟨leaves, ?_, hints⟩
      rw [Environment.eval, heval, thenInt_some, happly]
      simp [done]
  | binary op a b iha ihb =>
      rw [foldInt_binary] at h
      obtain ⟨x, hx, hrest⟩ := Option.bind_eq_some_iff.1 h
      obtain ⟨leaves, heval, hints⟩ := iha hx
      rw [Environment.eval, heval, thenInt_some]
      cases hdecided : op.decided? x with
      | some m =>
          rw [hdecided, Option.some_or, Option.some.injEq] at hrest
          exact ⟨leaves, by simp [done, hrest], hints⟩
      | none =>
          rw [hdecided, Option.none_or] at hrest
          obtain ⟨y, hy, happly⟩ := Option.bind_eq_some_iff.1 hrest
          obtain ⟨leaves', heval', hints'⟩ := ihb hy
          refine ⟨leaves ++ leaves', ?_, List.forall_mem_append.2 ⟨hints, hints'⟩⟩
          rw [heval', thenInt_some, happly]
          simp [done]
  | choice c a b ihc ihside =>
      rw [foldInt_choice] at h
      obtain ⟨x, hx, hside⟩ := Option.bind_eq_some_iff.1 h
      obtain ⟨leaves, heval, hints⟩ := ihc hx
      obtain ⟨leaves', heval', hints'⟩ := ihside x hside
      refine ⟨leaves ++ leaves', ?_, List.forall_mem_append.2 ⟨hints, hints'⟩⟩
      rw [eval_choice, heval, thenInt_some, heval', Option.map_some]

/-- A folded text is evaluated from the integer literals of conditions and, at last, from its own literal. -/
theorem eval_of_foldText (env : Environment σ) (s : σ) {t : String} (h : e.foldText = some t) :
    ∃ conditions, env.eval e s = some ⟨.text t, s, conditions ++ [.text t]⟩ ∧
      ∀ leaf ∈ conditions, leaf.isInt = true := by
  induction e using operatorInduction with
  | leaf e hleaf =>
      cases e with
      | text t' =>
          obtain rfl := Option.some.inj h
          exact ⟨[], rfl, by simp⟩
      | choice c a b => cases hleaf
      | _ => cases h
  | unary op a iha => cases h
  | binary op a b iha ihb => cases h
  | choice c a b ihc ihside =>
      rw [foldText_choice] at h
      obtain ⟨x, hx, hside⟩ := Option.bind_eq_some_iff.1 h
      obtain ⟨leaves, heval, hints⟩ := eval_of_foldInt env s hx
      obtain ⟨conditions, heval', hints'⟩ := ihside x hside
      refine ⟨leaves ++ conditions, ?_, List.forall_mem_append.2 ⟨hints, hints'⟩⟩
      rw [eval_choice, heval, thenInt_some, heval', Option.map_some, List.append_assoc]

theorem mem_leaves_of_isLeaf (hleaf : e.isLeaf = true) (heval : env.eval e s = some x) : e ∈ x.leaves := by
  cases e with
  | call f args =>
      obtain ⟨r, -, hr⟩ := Option.bind_eq_some_iff.1 heval
      obtain ⟨p, -, rfl⟩ := Option.map_eq_some_iff.1 hr
      exact List.mem_append_right _ List.mem_cons_self
  | unknown =>
      obtain ⟨p, -, rfl⟩ := Option.map_eq_some_iff.1 heval
      exact List.mem_cons_self
  | unary op a => cases hleaf
  | binary op a b => cases hleaf
  | choice c a b => cases hleaf
  | _ =>
      obtain rfl := Option.some.inj heval
      exact List.mem_cons_self

/-- An evaluation that meets literals alone is found by folding. -/
theorem foldsTo_of_eval (heval : env.eval e s = some x) (hleaves : ∀ leaf ∈ x.leaves, leaf.isLiteral = true) :
    e.FoldsTo x.value := by
  induction e using operatorInduction generalizing s x with
  | leaf e hleaf =>
      have hliteral := hleaves e (mem_leaves_of_isLeaf hleaf heval)
      cases e with
      | int n =>
          obtain rfl := Option.some.inj heval
          rfl
      | text t =>
          obtain rfl := Option.some.inj heval
          rfl
      | _ => cases hliteral
  | unary op a iha =>
      obtain ⟨n, t, leaves, y, ha, hy, rfl⟩ := thenInt_eq_some heval
      obtain ⟨r, happly, rfl⟩ := Option.map_eq_some_iff.1 hy
      have hfold : a.foldInt = some n := iha ha (List.forall_mem_append.1 hleaves).1
      show (Expr.unary op a).foldInt = some r
      rw [foldInt_unary, hfold, Option.bind_some, happly]
  | binary op a b iha ihb =>
      obtain ⟨n, t, leaves, y, ha, hy, rfl⟩ := thenInt_eq_some heval
      obtain ⟨hmet, hrest⟩ := List.forall_mem_append.1 hleaves
      have hfold : a.foldInt = some n := iha ha hmet
      cases hdecided : op.decided? n with
      | some m =>
          rw [hdecided, Option.map_some, Option.some_or, Option.some.injEq] at hy
          subst hy
          show (Expr.binary op a b).foldInt = some m
          rw [foldInt_binary, hfold, Option.bind_some, hdecided, Option.some_or]
      | none =>
          rw [hdecided, Option.map_none, Option.none_or] at hy
          obtain ⟨m, u, leaves', z, hb, hz, rfl⟩ := thenInt_eq_some hy
          obtain ⟨r, happly, rfl⟩ := Option.map_eq_some_iff.1 hz
          have hfold' : b.foldInt = some m := ihb hb (List.forall_mem_append.1 hrest).1
          show (Expr.binary op a b).foldInt = some r
          rw [foldInt_binary, hfold, Option.bind_some, hdecided, Option.none_or, hfold', Option.bind_some, happly]
  | choice c a b ihc ihside =>
      rw [eval_choice] at heval
      obtain ⟨n, t, leaves, y, hc, hy, rfl⟩ := thenInt_eq_some heval
      obtain ⟨hmet, hrest⟩ := List.forall_mem_append.1 hleaves
      have hfold : c.foldInt = some n := ihc hc hmet
      have hside : (picked n a b).FoldsTo y.value := ihside n hy hrest
      show (Expr.choice c a b).FoldsTo y.value
      cases hvalue : y.value with
      | int m =>
          rw [hvalue] at hside
          show (Expr.choice c a b).foldInt = some m
          rw [foldInt_choice, hfold, Option.bind_some, hside]
      | text m =>
          rw [hvalue] at hside
          show (Expr.choice c a b).foldText = some m
          rw [foldText_choice, hfold, Option.bind_some, hside]

theorem isLiteral_of_isInt (h : e.isInt = true) : e.isLiteral = true := by
  cases e with
  | int n => rfl
  | _ => cases h

/-- An expression folds to an integer exactly if its evaluation meets integer literals alone and ends with the integer,
and to a text exactly if the text literal ends an evaluation that met integer literals alone before it. So a constant is
the value of the expression in every environment, is evaluated without a call, and leaves the environment's state. -/
theorem fold_iff_eval (env : Environment σ) (s : σ) (e : Expr) :
    (∀ n, e.foldInt = some n ↔
      ∃ x, env.eval e s = some x ∧ x.value = .int n ∧ ∀ leaf ∈ x.leaves, leaf.isInt = true) ∧
    (∀ t, e.foldText = some t ↔
      ∃ x conditions, env.eval e s = some x ∧ x.value = .text t ∧ x.leaves = conditions ++ [.text t] ∧
        ∀ leaf ∈ conditions, leaf.isInt = true) ∧
    ∀ v, e.FoldsTo v →
      ∃ leaves, env.eval e s = some ⟨v, s, leaves⟩ ∧ ∀ callee arguments, Expr.call callee arguments ∉ leaves := by
  refine ⟨fun n => ⟨fun h => ?_, ?_⟩, fun t => ⟨fun h => ?_, ?_⟩, fun v hv => ?_⟩
  · obtain ⟨leaves, heval, hints⟩ := eval_of_foldInt env s h
    exact ⟨_, heval, rfl, hints⟩
  · rintro ⟨x, heval, hvalue, hints⟩
    have hfold := foldsTo_of_eval heval fun leaf hleaf => isLiteral_of_isInt (hints leaf hleaf)
    rwa [hvalue] at hfold
  · obtain ⟨conditions, heval, hints⟩ := eval_of_foldText env s h
    exact ⟨_, conditions, heval, rfl, rfl, hints⟩
  · rintro ⟨x, conditions, heval, hvalue, hleaves, hints⟩
    have hliterals : ∀ leaf ∈ x.leaves, leaf.isLiteral = true := by
      rw [hleaves, List.forall_mem_append]
      exact ⟨fun leaf hleaf => isLiteral_of_isInt (hints leaf hleaf), by simp [isLiteral]⟩
    have hfold := foldsTo_of_eval heval hliterals
    rwa [hvalue] at hfold
  · cases v with
    | int n =>
        obtain ⟨leaves, heval, hints⟩ := eval_of_foldInt env s hv
        refine ⟨leaves, heval, fun callee arguments hmem => ?_⟩
        cases hints _ hmem
    | text t =>
        obtain ⟨conditions, heval, hints⟩ := eval_of_foldText env s hv
        refine ⟨conditions ++ [.text t], heval, fun callee arguments hmem => ?_⟩
        rcases List.mem_append.1 hmem with hmem | hmem
        · cases hints _ hmem
        · cases List.mem_singleton.1 hmem

/-- Surroundings in which every call counts itself. -/
def countingCalls : Environment Nat where
  read _ _ := .int 0
  address _ _ := .int 0
  unknown _ := none
  call _ _ calls := some (.int 1, calls + 1)

/-- A choice between a call and a constant, with another call in its condition. Neither call is made. The constant
comes from a logical operator whose left operand does not settle it, and from each of the unary operators. -/
def callsLeftOut : Expr :=
  .choice (.binary .and (.int 0) (.call "ready" [])) (.call "fill" [.address ⟨"v", .integer⟩])
    (.unary .neg (.binary .and (.int 2) (.unary .bitNot (.unary .not (.int 3)))))

theorem fold_iff_eval_callsLeftOut :
    callsLeftOut.escaping = [⟨"v", .integer⟩] ∧ callsLeftOut.FoldsTo (.int (-1)) ∧
      (∃ leaves, countingCalls.eval callsLeftOut 0 = some ⟨.int (-1), 0, leaves⟩ ∧
        ∀ callee arguments, Expr.call callee arguments ∉ leaves) ∧
      (countingCalls.eval (.call "fill" [.address ⟨"v", .integer⟩]) 0).map (·.state) = some 1 := by
  have hfold : callsLeftOut.FoldsTo (.int (-1)) := by
    show callsLeftOut.foldInt = some (-1)
    decide
  exact ⟨by decide, hfold, (fold_iff_eval countingCalls 0 callsLeftOut).2.2 (.int (-1)) hfold, by decide⟩

end Folding
end Expr
end ConstantFlow
