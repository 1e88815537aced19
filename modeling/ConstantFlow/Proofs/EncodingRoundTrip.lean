import ConstantFlow.Encoding.Graph

/-! Reading the JSON form of a graph gives the graph back. Each type has its own round trip, on which the types above
it build; expressions and their arguments go by one induction over the tree. -/

namespace ConstantFlow

theorem fit?_toInt (n : Int64) : fit? n.toInt = some n := by
  have hlow := n.le_toInt
  have hhigh := n.toInt_lt
  rw [fit?, if_pos ⟨by omega, by omega⟩, Int64.ofInt_toInt]

namespace Json

@[simp] theorem text?_text (s : String) : text? (.text s) = some s := rfl

@[simp] theorem bool?_bool (b : Bool) : bool? (.bool b) = some b := rfl

@[simp] theorem int64?_toInt (n : Int64) : int64? (.integer n.toInt) = some n := fit?_toInt n

@[simp] theorem uint32?_toNat (n : UInt32) : uint32? (.nat n.toNat) = some n := by
  have hlt : (n.toNat : Int) < (UInt32.size : Nat) := Int.ofNat_lt.2 n.toNat_lt_size
  rw [uint32?, below?, nat, integer?, Option.bind_some, if_pos ⟨Int.natCast_nonneg _, hlt⟩, Int.toNat_natCast,
    Option.map_some, UInt32.ofNat_toNat]

section Fields
variable {α : Type} (read? : Json → Option α) {name other : String} (value : Json) (rest : List (String × Json))

@[simp] theorem required_cons_self : (object ((name, value) :: rest)).required read? name = read? value := by
  rw [required, field?, valueOf?, if_pos rfl, Option.bind_some]

@[simp] theorem required_cons_of_ne (h : other ≠ name) :
    (object ((other, value) :: rest)).required read? name = (object rest).required read? name := by
  rw [required, required, field?, field?, valueOf?, if_neg h]

@[simp] theorem optional_cons_self (default : α) :
    (object ((name, value) :: rest)).optional read? default name = read? value := by
  rw [optional, field?, valueOf?, if_pos rfl]

@[simp] theorem optional_cons_of_ne (default : α) (h : other ≠ name) :
    (object ((other, value) :: rest)).optional read? default name = (object rest).optional read? default name := by
  rw [optional, optional, field?, field?, valueOf?, if_neg h]

end Fields

theorem list?_map {α : Type} {read? : Json → Option α} {write : α → Json} (h : ∀ a, read? (write a) = some a)
    (items : List α) : list? read? (.array (items.map write)) = some items := by
  rw [list?]
  induction items with
  | nil => rfl
  | cons a rest ih =>
      rw [List.map_cons, List.mapM_cons, h, ih]
      rfl

end Json

@[simp] theorem Location.ofJson?_toJson (l : Location) : ofJson? l.toJson = some l := by
  simp [ofJson?, toJson]

@[simp] theorem VarType.ofName?_name (t : VarType) : ofName? t.name = some t := by
  cases t <;> rfl

@[simp] theorem UnaryOp.ofJson?_name (op : UnaryOp) : ofJson? (.text op.name) = some op := by
  cases op <;> rfl

@[simp] theorem BinaryOp.ofJson?_name (op : BinaryOp) : ofJson? (.text op.name) = some op := by
  cases op <;> rfl

@[simp] theorem CompoundOp.ofJson?_name (op : CompoundOp) : ofJson? (.text op.name) = some op := by
  cases op <;> rfl

@[simp] theorem Variable.ofJson?_toJson (v : Variable) : ofJson? v.toJson = some v := by
  simp [ofJson?, toJson, Json.tag?]

namespace Expr

mutual

@[simp] theorem ofJson?_toJson : (e : Expr) → ofJson? e.toJson = some e
  | .int n => by simp [toJson, ofJson?]
  | .text s => by simp [toJson, ofJson?]
  | .read v => by simp [toJson, ofJson?]
  | .address v => by simp [toJson, ofJson?]
  | .unary op a => by simp [toJson, ofJson?, ofJson?_toJson a]
  | .binary op a b => by simp [toJson, ofJson?, ofJson?_toJson a, ofJson?_toJson b]
  | .choice c a b => by simp [toJson, ofJson?, ofJson?_toJson c, ofJson?_toJson a, ofJson?_toJson b]
  | .call f arguments => by simp [toJson, ofJson?, ofJsonAll?_toJsonAll arguments]
  | .unknown => by simp [toJson, ofJson?]

theorem ofJsonAll?_toJsonAll : (es : List Expr) → ofJsonAll? (toJsonAll es) = some es
  | [] => by simp [toJsonAll, ofJsonAll?]
  | e :: rest => by simp [toJsonAll, ofJsonAll?, ofJson?_toJson e, ofJsonAll?_toJsonAll rest]

end

/-- No expression is written as null, so that a missing one is told from a present one. -/
theorem orNull?_toJson (e : Expr) : Json.orNull? ofJson? e.toJson = some (some e) := by
  have hread : Json.orNull? ofJson? e.toJson = (ofJson? e.toJson).map some := by
    cases e <;> rfl
  rw [hread, ofJson?_toJson, Option.map_some]

@[simp] theorem orNull?_map_toJson (initial : Option Expr) :
    Json.orNull? ofJson? ((initial.map toJson).getD .null) = some initial := by
  cases initial with
  | none => rfl
  | some e => exact orNull?_toJson e

end Expr

@[simp] theorem Argument.ofJson?_toJson (a : Argument) : ofJson? a.toJson = some a := by
  simp [ofJson?, toJson]

@[simp] theorem Statement.ofJson?_toJson (st : Statement) : ofJson? st.toJson = some st := by
  cases st with
  | declare target initial l => simp [ofJson?, toJson]
  | assign target value l => simp [ofJson?, toJson]
  | combine target op value l => simp [ofJson?, toJson]
  | call callee arguments l finish => simp [ofJson?, toJson, Json.list?_map Argument.ofJson?_toJson]
  | other l => simp [ofJson?, toJson]

@[simp] theorem BlockId.ofJson?_toJson (b : BlockId) : ofJson? b.toJson = some b := by
  rw [ofJson?, toJson, index, Json.uint32?_toNat, Option.map_some]

namespace Block

@[simp] theorem orNull?_endToJson (target : Option BlockId) :
    Json.orNull? BlockId.ofJson? (endToJson target) = some target := by
  cases target with
  | none => rfl
  | some b =>
      have hread : Json.orNull? BlockId.ofJson? b.toJson = (BlockId.ofJson? b.toJson).map some := rfl
      rw [endToJson, hread, BlockId.ofJson?_toJson, Option.map_some]

@[simp] theorem ofJson?_toJson (b : Block) : ofJson? b.toJson = some b := by
  simp [ofJson?, toJson, Json.list?_map Statement.ofJson?_toJson, Json.list?_map orNull?_endToJson]

end Block

theorem Graph.ofJson?_toJson (g : Graph) : ofJson? g.toJson = some g := by
  simp [ofJson?, toJson, Json.list?_map Block.ofJson?_toJson]

end ConstantFlow
