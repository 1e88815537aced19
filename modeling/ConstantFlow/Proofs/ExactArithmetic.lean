import ConstantFlow.Expr
import Mathlib.Algebra.Order.Ring.Int

/-! Folded arithmetic against unbounded integers. An operation folds where its exact result is defined and fits a word,
with one exception: a left shift drops the bits that leave the word. An arithmetic expression therefore folds to its
exact value exactly if its left shifts fit, or if it does not fold at all. -/

namespace ConstantFlow

def InWord (n : Int) : Prop := -9223372036854775808 ≤ n ∧ n < 9223372036854775808

instance (n : Int) : Decidable (InWord n) := inferInstanceAs (Decidable (_ ∧ _))

def word? (n : Int) : Option Int := if InWord n then some n else none

/-- The integer in a word that has the same low 64 bits. -/
def wrap (n : Int) : Int := n.bmod Int64.size

theorem inWord_toInt (n : Int64) : InWord n.toInt := by
  have hlow := n.le_toInt
  have hhigh := n.toInt_lt
  unfold InWord
  omega

theorem wrap_of_inWord {n : Int} (h : InWord n) : wrap n = n := by
  unfold InWord at h
  unfold wrap Int64.size
  apply Int.bmod_eq_of_le
  · omega
  · omega

theorem word?_of_inWord {n : Int} (h : InWord n) : word? n = some n := if_pos h

theorem inWord_of_word? {n m : Int} (h : word? n = some m) : InWord n := by
  by_contra hnot
  rw [word?, if_neg hnot] at h
  cases h

theorem fit?_of_inWord {n : Int} (h : InWord n) : fit? n = some (Int64.ofInt n) := if_pos h

theorem fit?_of_not_inWord {n : Int} (h : ¬ InWord n) : fit? n = none := if_neg h

theorem map_fit? (n : Int) : (fit? n).map Int64.toInt = word? n := by
  unfold word?
  split
  next h => rw [fit?_of_inWord h, Option.map_some, Int64.toInt_ofInt, ← wrap, wrap_of_inWord h]
  next h => rw [fit?_of_not_inWord h, Option.map_none]

namespace BinaryOp

/-- The operators that stand for a calculation with integers. A shift does: it multiplies or divides. -/
def isArithmetic : BinaryOp → Bool
  | .add | .sub | .mul | .div | .rem | .shl | .shr => true
  | _ => false

/-- The result of an arithmetic operator on unbounded integers. Quotients go toward zero, and a remainder needs a
quotient that fits a word; shifts multiply by a power of two, or divide by it and go to the floor. -/
def result? : BinaryOp → Int → Int → Option Int
  | .add, a, b => some (a + b)
  | .sub, a, b => some (a - b)
  | .mul, a, b => some (a * b)
  | .div, a, b => if b = 0 then none else some (a.tdiv b)
  | .rem, a, b => if b ≠ 0 ∧ InWord (a.tdiv b) then some (a.tmod b) else none
  | .shl, a, b => if 0 ≤ b ∧ b < 64 then some (a * 2 ^ b.toNat) else none
  | .shr, a, b => if 0 ≤ b ∧ b < 64 then some (a.fdiv (2 ^ b.toNat)) else none
  | _, _, _ => none

/-- What folding makes of an exact result: the low 64 bits of a left shift, and of any other one what fits a word. -/
def keep? : BinaryOp → Int → Option Int
  | .shl, n => some (wrap n)
  | _, n => word? n

theorem keep?_eq_word? {op : BinaryOp} {n : Int} (h : op = .shl → InWord n) : op.keep? n = word? n := by
  unfold keep?
  split
  · rw [wrap_of_inWord (h rfl), word?_of_inWord (h rfl)]
  · rfl

theorem inWord_fdiv {a : Int} (ha : InWord a) (n : Nat) : InWord (a.fdiv (2 ^ n)) := by
  have hpos : (0 : Int) < 2 ^ n := pow_pos two_pos n
  unfold InWord at *
  rw [Int.fdiv_eq_ediv_of_nonneg _ hpos.le]
  constructor
  · apply Int.le_ediv_of_mul_le hpos
    omega
  · apply Int.ediv_lt_of_lt_mul hpos
    omega

/-- An arithmetic operator on words gives what is kept of its exact result. -/
theorem map_apply {op : BinaryOp} (hop : op.isArithmetic = true) (a b : Int64) :
    (op.apply a b).map Int64.toInt = (op.result? a.toInt b.toInt).bind op.keep? := by
  have hzero : b = 0 ↔ b.toInt = 0 := by rw [← Int64.toInt_inj, Int64.toInt_zero]
  cases op with
  | add => exact map_fit? _
  | sub => exact map_fit? _
  | mul => exact map_fit? _
  | div =>
      rw [apply, result?]
      by_cases hb : b = 0
      · rw [if_pos hb, if_pos (hzero.1 hb)]
        rfl
      · rw [if_neg hb, if_neg (mt hzero.2 hb)]
        exact map_fit? _
  | rem =>
      rw [apply, result?]
      by_cases hb : b = 0
      · rw [if_pos hb, if_neg fun h => h.1 (hzero.1 hb)]
        rfl
      · rw [if_neg hb]
        by_cases hquotient : InWord (a.toInt.tdiv b.toInt)
        · rw [fit?_of_inWord hquotient, if_pos ⟨mt hzero.2 hb, hquotient⟩]
          exact map_fit? _
        · rw [fit?_of_not_inWord hquotient, if_neg fun h => hquotient h.2]
          rfl
  | shl =>
      rw [apply, result?, shiftAmount?]
      split
      · rw [Option.map_some, Option.map_some, Int64.toInt_ofInt]
        rfl
      · rfl
  | shr =>
      rw [apply, result?, shiftAmount?]
      split
      · have hword := inWord_fdiv (inWord_toInt a) b.toInt.toNat
        have hfloor : a.toInt / Int.pow 2 b.toInt.toNat = a.toInt.fdiv (2 ^ b.toInt.toNat) :=
          (Int.fdiv_eq_ediv_of_nonneg _ (pow_pos two_pos _).le).symm
        rw [Option.map_some, Option.map_some, Int64.toInt_ofInt, hfloor, ← wrap, wrap_of_inWord hword]
        exact (word?_of_inWord hword).symm
      · rfl
  | _ => cases hop

end BinaryOp

namespace Expr

/-- Expressions made of integers by negation and arithmetic operators. -/
inductive Arithmetic : Expr → Prop where
  | int (n : Int64) : Arithmetic (.int n)
  | neg {a : Expr} : Arithmetic a → Arithmetic (.unary .neg a)
  | binary {op : BinaryOp} {a b : Expr} : op.isArithmetic = true → Arithmetic a → Arithmetic b →
      Arithmetic (.binary op a b)

/-- The value of an arithmetic expression on unbounded integers, if every operation in it has one. `keep?` says what
is kept of the result of a binary operator. -/
def value? (keep? : BinaryOp → Int → Option Int) : Expr → Option Int
  | .int n => some n.toInt
  | .unary .neg a => (a.value? keep?).bind fun x => word? (-x)
  | .binary op a b =>
    (a.value? keep?).bind fun x => (b.value? keep?).bind fun y => (op.result? x y).bind (keep? op)
  | _ => none

/-- The exact value of an arithmetic expression, if every operation in it is defined with a result that fits a word. -/
def exactValue? (e : Expr) : Option Int := e.value? fun _ => word?

/-- Whether the result of every left shift with exact operands fits a word. -/
def ShiftsFit : Expr → Prop
  | .unary _ a => a.ShiftsFit
  | .binary op a b => a.ShiftsFit ∧ b.ShiftsFit ∧
    (op = .shl → ∀ x ∈ a.exactValue?, ∀ y ∈ b.exactValue?, ∀ n ∈ op.result? x y, InWord n)
  | _ => True

variable {e : Expr}

theorem foldInt_arithmetic {op : BinaryOp} (hop : op.isArithmetic = true) (a b : Expr) :
    (Expr.binary op a b).foldInt = a.foldInt.bind fun x => b.foldInt.bind fun y => op.apply x y := by
  cases op with
  | and => cases hop
  | or => cases hop
  | _ => rfl

theorem Arithmetic.map_foldInt (h : e.Arithmetic) : e.foldInt.map Int64.toInt = e.value? BinaryOp.keep? := by
  induction h with
  | int n => rfl
  | @neg a ha ih =>
      rw [foldInt, value?, ← ih, Option.map_bind, Option.bind_map]
      congr 1
      funext x
      exact map_fit? _
  | @binary op a b hop ha hb iha ihb =>
      rw [foldInt_arithmetic hop, value?, ← iha, ← ihb, Option.map_bind, Option.bind_map]
      congr 1
      funext x
      simp only [Function.comp_apply, Option.map_bind, Option.bind_map]
      congr 1
      funext y
      exact BinaryOp.map_apply hop x y

theorem Arithmetic.value?_of_shiftsFit (h : e.Arithmetic) (hfit : e.ShiftsFit) :
    e.value? BinaryOp.keep? = e.exactValue? := by
  induction h with
  | int n => rfl
  | @neg a ha ih => rw [exactValue?, value?, value?, ih hfit, exactValue?]
  | @binary op a b hop ha hb iha ihb =>
      obtain ⟨hfita, hfitb, hshift⟩ := hfit
      rw [exactValue?, value?, value?, iha hfita, ihb hfitb]
      refine Option.bind_congr fun x hx => Option.bind_congr fun y hy => Option.bind_congr fun n hn => ?_
      exact BinaryOp.keep?_eq_word? fun hop => hshift hop x hx y hy n hn

theorem Arithmetic.shiftsFit_of_exactValue? (h : e.Arithmetic) {n : Int} (hexact : e.exactValue? = some n) : e.ShiftsFit := by
  induction h generalizing n with
  | int n => trivial
  | @neg a ha ih =>
      obtain ⟨x, hx, -⟩ := Option.bind_eq_some_iff.1 hexact
      exact ih hx
  | @binary op a b hop ha hb iha ihb =>
      obtain ⟨x, hx, hrest⟩ := Option.bind_eq_some_iff.1 hexact
      obtain ⟨y, hy, hrest⟩ := Option.bind_eq_some_iff.1 hrest
      obtain ⟨m, hm, hword⟩ := Option.bind_eq_some_iff.1 hrest
      refine ⟨iha hx, ihb hy, ?_⟩
      rintro - x' hx' y' hy' m' hm'
      obtain rfl := Option.some.inj (hx.symm.trans hx')
      obtain rfl := Option.some.inj (hy.symm.trans hy')
      obtain rfl := Option.some.inj (hm.symm.trans hm')
      exact inWord_of_word? hword

/-- Folding computes arithmetic exactly, save that a left shift keeps its low 64 bits. So the folded constant is the
exact value, and there is none where there is no exact value, exactly if the expression does not fold or none of its
left shifts leaves the word. -/
theorem foldInt_exact_iff (h : e.Arithmetic) :
    e.foldInt.map Int64.toInt = e.value? BinaryOp.keep? ∧
      (e.foldInt.map Int64.toInt = e.exactValue? ↔ e.foldInt = none ∨ e.ShiftsFit) := by
  refine ⟨h.map_foldInt, ?_⟩
  constructor
  · intro hexact
    cases hfold : e.foldInt with
    | none => exact Or.inl rfl
    | some c =>
        rw [hfold, Option.map_some] at hexact
        exact Or.inr (h.shiftsFit_of_exactValue? hexact.symm)
  · rintro (hnone | hfit)
    · cases hexact : e.exactValue? with
      | none => rw [hnone, Option.map_none]
      | some n =>
          -- An exact value would have been folded.
          have hvalue := h.value?_of_shiftsFit (h.shiftsFit_of_exactValue? hexact)
          rw [← h.map_foldInt, hnone, hexact] at hvalue
          cases hvalue
    · rw [h.map_foldInt, h.value?_of_shiftsFit hfit]

/-- A remainder of a shifted negative number. -/
def leftOver : Expr := .binary .rem (.binary .shl (.unary .neg (.int 5)) (.int 3)) (.int 7)

theorem foldInt_exact_iff_leftOver :
    leftOver.Arithmetic ∧ leftOver.ShiftsFit ∧ leftOver.foldInt = some (-5) ∧
      leftOver.foldInt.map Int64.toInt = leftOver.exactValue? := by
  have harithmetic : leftOver.Arithmetic := .binary rfl (.binary rfl (.neg (.int 5)) (.int 3)) (.int 7)
  have hfit : leftOver.ShiftsFit := ⟨⟨trivial, trivial, fun _ => by decide⟩, trivial, fun h => by cases h⟩
  exact ⟨harithmetic, hfit, by decide, (foldInt_exact_iff harithmetic).2.2 (Or.inr hfit)⟩

/-- A shift of the only bit into the sign. -/
def signShift : Expr := .binary .shl (.int 1) (.int 63)

/-- The least word comes out of `signShift`, whose exact value is greater than every word. -/
theorem foldInt_signShift_not_exact :
    signShift.Arithmetic ∧ BinaryOp.shl.result? 1 63 = some 9223372036854775808 ∧
      signShift.foldInt = some (-9223372036854775808) ∧ signShift.exactValue? = none :=
  ⟨.binary rfl (.int 1) (.int 63), by decide, by decide, by decide⟩

end Expr
end ConstantFlow
