import ConstantFlow.Proofs.BlockStates
import ConstantFlow.Proofs.EncodingRoundTrip
import Mathlib.Data.List.Nodup
import Mathlib.Data.List.Perm.Basic
import Mathlib.Logic.Relation

/-! Other ways to write a graph in JSON. An edit changes a document at one place, at any depth: it leaves out an
optional field that holds its default, adds a field that a record does not have, lists fields in another order, or
writes an unknown expression as an object. No edit changes what a document is read to, and so no number of them does.

Each type has the rules for its fields and, by them, its edits. -/

namespace ConstantFlow

section Fields
variable {α : Type} {name : String}

theorem valueOf?_append (front back : List (String × α)) :
    valueOf? name (front ++ back) = (valueOf? name front).or (valueOf? name back) := by
  induction front with
  | nil => rfl
  | cons p rest ih =>
      rw [List.cons_append, valueOf?, valueOf?]
      split
      · rfl
      · exact ih

theorem valueOf?_eq_none_of_not_mem {fields : List (String × α)} (h : name ∉ fields.map (·.1)) :
    valueOf? name fields = none := by
  rw [← Table.valueOf?_isSome_iff] at h
  simpa using h

theorem valueOf?_of_perm {fields fields' : List (String × α)} (hperm : fields.Perm fields')
    (honce : (fields.map (·.1)).count name ≤ 1) : valueOf? name fields' = valueOf? name fields := by
  induction hperm with
  | nil => rfl
  | cons p _ ih =>
      rw [valueOf?, valueOf?]
      split
      · rfl
      · rename_i hne
        rw [List.map_cons, List.count_cons_of_ne hne] at honce
        exact ih honce
  | swap p q rest =>
      simp only [valueOf?]
      by_cases hp : p.1 = name
      · by_cases hq : q.1 = name
        · simp [hp, hq] at honce
        · simp [hp, hq]
      · simp [hp]
  | trans hperm _ ih₁ ih₂ =>
      have hmiddle := honce
      rw [(hperm.map _).count_eq name] at hmiddle
      rw [ih₂ hmiddle, ih₁ honce]

end Fields

namespace Json

/-- What holds of a field of a record. -/
structure FieldRule where
  /-- The value that the field stands for where it is left out, if it may be left out. -/
  default? : Option Json := none
  /-- The edits inside the value. -/
  Edit : Json → Json → Prop := fun _ _ => False

/-- An edit of an object that holds a record, by the rules for the record's fields. A field that is left out or moved
stands once: every field of a written record does, and no edit repeats one that has a rule. -/
inductive RecordEdit (rules : String → Option FieldRule) : Json → Json → Prop
  | drop {front back : List (String × Json)} {name : String} {value : Json} {rule : FieldRule}
      (hrule : rules name = some rule) (hdefault : rule.default? = some value)
      (honce : name ∉ (front ++ back).map (·.1)) :
      RecordEdit rules (.object (front ++ (name, value) :: back)) (.object (front ++ back))
  | add {front back : List (String × Json)} {name : String} {value : Json} (hunknown : rules name = none) :
      RecordEdit rules (.object (front ++ back)) (.object (front ++ (name, value) :: back))
  | reorder {fields fields' : List (String × Json)} (hperm : fields.Perm fields')
      (honce : ∀ name, rules name ≠ none → (fields.map (·.1)).count name ≤ 1) :
      RecordEdit rules (.object fields) (.object fields')
  | inside {front back : List (String × Json)} {name : String} {value value' : Json} {rule : FieldRule}
      (hrule : rules name = some rule) (hedit : rule.Edit value value') :
      RecordEdit rules (.object (front ++ (name, value) :: back)) (.object (front ++ (name, value') :: back))

/-- An edit of one item of an array. -/
inductive ItemEdit (Edit : Json → Json → Prop) : Json → Json → Prop
  | item {front back : List Json} {value value' : Json} (hedit : Edit value value') :
      ItemEdit Edit (.array (front ++ value :: back)) (.array (front ++ value' :: back))

variable {rules : String → Option FieldRule} {rule : FieldRule} {j j' : Json} {α : Type}

/-- What an edit can do to the field of a record. -/
theorem RecordEdit.field?_cases (h : RecordEdit rules j j') {name : String} (hrule : rules name = some rule) :
    j'.field? name = j.field? name ∨
      (∃ value, rule.default? = some value ∧ j.field? name = some value ∧ j'.field? name = none) ∨
      ∃ value value', rule.Edit value value' ∧ j.field? name = some value ∧ j'.field? name = some value' := by
  cases h with
  | @drop front back other value rule' hrule' hdefault honce =>
      by_cases hname : other = name
      · subst hname
        obtain rfl : rule' = rule := Option.some.inj (hrule'.symm.trans hrule)
        rw [List.map_append, List.mem_append, not_or] at honce
        refine Or.inr (Or.inl ⟨value, hdefault, ?_, ?_⟩)
        · simp [field?, valueOf?_append, valueOf?, valueOf?_eq_none_of_not_mem honce.1]
        · simp [field?, valueOf?_append, valueOf?_eq_none_of_not_mem honce.1, valueOf?_eq_none_of_not_mem honce.2]
      · exact Or.inl (by simp [field?, valueOf?_append, valueOf?, hname])
  | @add front back other value hunknown =>
      have hname : other ≠ name := by
        rintro rfl
        rw [hrule] at hunknown
        cases hunknown
      exact Or.inl (by simp [field?, valueOf?_append, valueOf?, hname])
  | reorder hperm honce =>
      have hknown : rules name ≠ none := by simp [hrule]
      exact Or.inl (valueOf?_of_perm hperm (honce name hknown))
  | @inside front back other value value' rule' hrule' hedit =>
      by_cases hname : other = name
      · subst hname
        obtain rfl : rule' = rule := Option.some.inj (hrule'.symm.trans hrule)
        cases hfront : valueOf? other front with
        | none =>
            refine Or.inr (Or.inr ⟨value, value', hedit, ?_, ?_⟩) <;>
              simp [field?, valueOf?_append, valueOf?, hfront]
        | some earlier => exact Or.inl (by simp [field?, valueOf?_append, hfront])
      · exact Or.inl (by simp [field?, valueOf?_append, valueOf?, hname])

/-- An edit changes no field that has to be there, if the edits inside its value are not seen. -/
theorem RecordEdit.required (h : RecordEdit rules j j') (read? : Json → Option α) (name : String)
    (hrule : rules name = some rule) (hdefault : rule.default? = none)
    (hread : ∀ value value', rule.Edit value value' → read? value' = read? value) :
    j'.required read? name = j.required read? name := by
  rcases h.field?_cases hrule with hsame | ⟨value, hvalue, -⟩ | ⟨value, value', hedit, hbefore, hafter⟩
  · rw [Json.required, Json.required, hsame]
  · rw [hdefault] at hvalue
    cases hvalue
  · rw [Json.required, Json.required, hbefore, hafter, Option.bind_some, Option.bind_some, hread _ _ hedit]

theorem RecordEdit.optional (h : RecordEdit rules j j') (read? : Json → Option α) (default : α) (name : String)
    (hrule : rules name = some rule) (hdefault : ∀ value, rule.default? = some value → read? value = some default)
    (hread : ∀ value value', rule.Edit value value' → read? value' = read? value) :
    j'.optional read? default name = j.optional read? default name := by
  rw [Json.optional, Json.optional]
  rcases h.field?_cases hrule with hsame | ⟨value, hvalue, hbefore, hafter⟩ | ⟨value, value', hedit, hbefore, hafter⟩
  · rw [hsame]
  · simp only [hbefore, hafter, hdefault value hvalue]
  · simp only [hbefore, hafter, hread _ _ hedit]

theorem mapM_congr_item {read? : Json → Option α} {value value' : Json} (h : read? value' = read? value)
    (front back : List Json) : (front ++ value' :: back).mapM read? = (front ++ value :: back).mapM read? := by
  rw [List.mapM_append, List.mapM_append, List.mapM_cons, List.mapM_cons, h]

theorem ItemEdit.list? {Edit : Json → Json → Prop} (h : ItemEdit Edit j j') {read? : Json → Option α}
    (hread : ∀ value value', Edit value value' → read? value' = read? value) : j'.list? read? = j.list? read? := by
  cases h with
  | @item front back value value' hedit => exact mapM_congr_item (hread value value' hedit) front back

end Json

namespace Location

def rules : String → Option Json.FieldRule
  | "line" | "column" => some {}
  | "expansion_index" => some { default? := some (.nat 0) }
  | _ => none

def Edit : Json → Json → Prop := Json.RecordEdit rules

theorem ofJson?_of_edit {j j' : Json} (h : Edit j j') : ofJson? j' = ofJson? j := by
  have hline := h.required Json.uint32? "line" rfl rfl fun _ _ hedit => hedit.elim
  have hcolumn := h.required Json.uint32? "column" rfl rfl fun _ _ hedit => hedit.elim
  have hindex := h.optional Json.uint32? 0 "expansion_index" rfl
    (fun value hvalue => Option.some.inj hvalue ▸ Json.uint32?_toNat 0) fun _ _ hedit => hedit.elim
  rw [ofJson?, ofJson?, hline, hcolumn, hindex]

end Location

namespace Variable

def rules : String → Option Json.FieldRule
  | "name" | "ty" => some {}
  | _ => none

def Edit : Json → Json → Prop := Json.RecordEdit rules

theorem ofJson?_of_edit {j j' : Json} (h : Edit j j') : ofJson? j' = ofJson? j := by
  have hname := h.required Json.text? "name" rfl rfl fun _ _ hedit => hedit.elim
  have htype := h.required (fun t => t.tag?.bind VarType.ofName?) "ty" rfl rfl fun _ _ hedit => hedit.elim
  rw [ofJson?, ofJson?, hname, htype]

end Variable

namespace Expr

/-- The edits of an expression, at its root or inside a part of it. -/
inductive Edit : Json → Json → Prop
  | unknown : Edit (.text "Opaque") (.object [("Opaque", .null)])
  | read {v v' : Json} (h : Variable.Edit v v') : Edit (.object [("Variable", v)]) (.object [("Variable", v')])
  | address {v v' : Json} (h : Variable.Edit v v') : Edit (.object [("AddressOf", v)]) (.object [("AddressOf", v')])
  | operand {op a a' : Json} (h : Edit a a') :
      Edit (.object [("Unary", .array [op, a])]) (.object [("Unary", .array [op, a'])])
  | left {op a a' b : Json} (h : Edit a a') :
      Edit (.object [("Binary", .array [op, a, b])]) (.object [("Binary", .array [op, a', b])])
  | right {op a b b' : Json} (h : Edit b b') :
      Edit (.object [("Binary", .array [op, a, b])]) (.object [("Binary", .array [op, a, b'])])
  | condition {c c' a b : Json} (h : Edit c c') :
      Edit (.object [("Conditional", .array [c, a, b])]) (.object [("Conditional", .array [c', a, b])])
  | yes {c a a' b : Json} (h : Edit a a') :
      Edit (.object [("Conditional", .array [c, a, b])]) (.object [("Conditional", .array [c, a', b])])
  | no {c a b b' : Json} (h : Edit b b') :
      Edit (.object [("Conditional", .array [c, a, b])]) (.object [("Conditional", .array [c, a, b'])])
  | argument {f a a' : Json} {front back : List Json} (h : Edit a a') :
      Edit (.object [("Call", .array [f, .array (front ++ a :: back)])])
        (.object [("Call", .array [f, .array (front ++ a' :: back)])])

theorem ofJsonAll?_eq_mapM (items : List Json) : ofJsonAll? items = items.mapM ofJson? := by
  induction items with
  | nil => rfl
  | cons a rest ih => rw [ofJsonAll?, ih, List.mapM_cons]

theorem ofJson?_of_edit {j j' : Json} (h : Edit j j') : ofJson? j' = ofJson? j := by
  induction h with
  | unknown => rfl
  | read h | address h => rw [ofJson?, ofJson?, Variable.ofJson?_of_edit h]
  | operand _ ih | left _ ih | right _ ih | condition _ ih | yes _ ih | no _ ih => rw [ofJson?, ofJson?, ih]
  | @argument f a a' front back _ ih =>
      rw [ofJson?, ofJson?, ofJsonAll?_eq_mapM, ofJsonAll?_eq_mapM, Json.mapM_congr_item ih]

/-- Neither side of an edit is null. -/
theorem orNull?_of_edit {j j' : Json} (h : Edit j j') : Json.orNull? ofJson? j' = Json.orNull? ofJson? j := by
  have hread := congrArg (Option.map some) (ofJson?_of_edit h)
  cases h <;> exact hread

end Expr

namespace Argument

def rules : String → Option Json.FieldRule
  | "value" => some { Edit := Expr.Edit }
  | "location" => some { Edit := Location.Edit }
  | "by_reference" => some { default? := some (.bool false) }
  | _ => none

def Edit : Json → Json → Prop := Json.RecordEdit rules

theorem ofJson?_of_edit {j j' : Json} (h : Edit j j') : ofJson? j' = ofJson? j := by
  have hvalue := h.required Expr.ofJson? "value" rfl rfl fun _ _ => Expr.ofJson?_of_edit
  have hlocation := h.required Location.ofJson? "location" rfl rfl fun _ _ => Location.ofJson?_of_edit
  have hreference := h.optional Json.bool? false "by_reference" rfl
    (fun value hdefault => Option.some.inj hdefault ▸ Json.bool?_bool false) fun _ _ hedit => hedit.elim
  rw [ofJson?, ofJson?, hvalue, hlocation, hreference]

end Argument

namespace Statement

/-- The rules for the fields of each form of statement, by the name of the form. -/
def rules : String → String → Option Json.FieldRule
  | "Declaration", "variable" => some { Edit := Variable.Edit }
  | "Declaration", "initializer" => some { default? := some .null, Edit := Expr.Edit }
  | "Declaration", "location" => some { Edit := Location.Edit }
  | "Assignment", "target" => some { Edit := Variable.Edit }
  | "Assignment", "value" => some { Edit := Expr.Edit }
  | "Assignment", "location" => some { Edit := Location.Edit }
  | "CompoundAssignment", "target" => some { Edit := Variable.Edit }
  | "CompoundAssignment", "op" => some {}
  | "CompoundAssignment", "value" => some { Edit := Expr.Edit }
  | "CompoundAssignment", "location" => some { Edit := Location.Edit }
  | "Call", "callee" => some {}
  | "Call", "arguments" => some { Edit := Json.ItemEdit Argument.Edit }
  | "Call", "location" => some { Edit := Location.Edit }
  | "Call", "end_location" => some { Edit := Location.Edit }
  | "Other", "location" => some { Edit := Location.Edit }
  | _, _ => none

/-- The edits of a statement: those of the record of its form. -/
inductive Edit : Json → Json → Prop
  | record {form : String} {j j' : Json}
      (hform : form ∈ ["Declaration", "Assignment", "CompoundAssignment", "Call", "Other"])
      (h : Json.RecordEdit (rules form) j j') : Edit (.object [(form, j)]) (.object [(form, j')])

theorem ofJson?_of_edit {j j' : Json} (h : Edit j j') : ofJson? j' = ofJson? j := by
  obtain @⟨form, j, j', hform, h⟩ := h
  simp only [List.mem_cons, List.not_mem_nil, or_false] at hform
  rcases hform with rfl | rfl | rfl | rfl | rfl
  · have htarget := h.required Variable.ofJson? "variable" rfl rfl fun _ _ => Variable.ofJson?_of_edit
    have hinitial := h.optional (Json.orNull? Expr.ofJson?) none "initializer" rfl
      (fun value hdefault => Option.some.inj hdefault ▸ rfl) fun _ _ => Expr.orNull?_of_edit
    have hlocation := h.required Location.ofJson? "location" rfl rfl fun _ _ => Location.ofJson?_of_edit
    rw [ofJson?, ofJson?, htarget, hinitial, hlocation]
  · have htarget := h.required Variable.ofJson? "target" rfl rfl fun _ _ => Variable.ofJson?_of_edit
    have hvalue := h.required Expr.ofJson? "value" rfl rfl fun _ _ => Expr.ofJson?_of_edit
    have hlocation := h.required Location.ofJson? "location" rfl rfl fun _ _ => Location.ofJson?_of_edit
    rw [ofJson?, ofJson?, htarget, hvalue, hlocation]
  · have htarget := h.required Variable.ofJson? "target" rfl rfl fun _ _ => Variable.ofJson?_of_edit
    have hop := h.required CompoundOp.ofJson? "op" rfl rfl fun _ _ hedit => hedit.elim
    have hvalue := h.required Expr.ofJson? "value" rfl rfl fun _ _ => Expr.ofJson?_of_edit
    have hlocation := h.required Location.ofJson? "location" rfl rfl fun _ _ => Location.ofJson?_of_edit
    rw [ofJson?, ofJson?, htarget, hop, hvalue, hlocation]
  · have hcallee := h.required Json.text? "callee" rfl rfl fun _ _ hedit => hedit.elim
    have harguments := h.required (Json.list? Argument.ofJson?) "arguments" rfl rfl
      fun _ _ hedit => hedit.list? fun _ _ => Argument.ofJson?_of_edit
    have hlocation := h.required Location.ofJson? "location" rfl rfl fun _ _ => Location.ofJson?_of_edit
    have hfinish := h.required Location.ofJson? "end_location" rfl rfl fun _ _ => Location.ofJson?_of_edit
    rw [ofJson?, ofJson?, hcallee, harguments, hlocation, hfinish]
  · have hlocation := h.required Location.ofJson? "location" rfl rfl fun _ _ => Location.ofJson?_of_edit
    rw [ofJson?, ofJson?, hlocation]

end Statement

namespace Block

def rules : String → Option Json.FieldRule
  | "id" | "predecessors" | "successors" => some {}
  | "statements" => some { Edit := Json.ItemEdit Statement.Edit }
  | _ => none

def Edit : Json → Json → Prop := Json.RecordEdit rules

theorem ofJson?_of_edit {j j' : Json} (h : Edit j j') : ofJson? j' = ofJson? j := by
  have hid := h.required BlockId.ofJson? "id" rfl rfl fun _ _ hedit => hedit.elim
  have hstatements := h.required (Json.list? Statement.ofJson?) "statements" rfl rfl
    fun _ _ hedit => hedit.list? fun _ _ => Statement.ofJson?_of_edit
  have hpredecessors := h.required (Json.list? (Json.orNull? BlockId.ofJson?)) "predecessors" rfl rfl
    fun _ _ hedit => hedit.elim
  have hsuccessors := h.required (Json.list? (Json.orNull? BlockId.ofJson?)) "successors" rfl rfl
    fun _ _ hedit => hedit.elim
  rw [ofJson?, ofJson?, hid, hstatements, hpredecessors, hsuccessors]

end Block

namespace Graph

def rules : String → Option Json.FieldRule
  | "function_id" => some {}
  | "entry" => some { default? := some .null }
  | "blocks" => some { Edit := Json.ItemEdit Block.Edit }
  | _ => none

def Edit : Json → Json → Prop := Json.RecordEdit rules

theorem ofJson?_of_edit {j j' : Json} (h : Edit j j') : ofJson? j' = ofJson? j := by
  have hid := h.required Json.text? "function_id" rfl rfl fun _ _ hedit => hedit.elim
  have hentry := h.optional (Json.orNull? BlockId.ofJson?) none "entry" rfl
    (fun value hdefault => Option.some.inj hdefault ▸ rfl) fun _ _ hedit => hedit.elim
  have hblocks := h.required (Json.list? Block.ofJson?) "blocks" rfl rfl
    fun _ _ hedit => hedit.list? fun _ _ => Block.ofJson?_of_edit
  rw [ofJson?, ofJson?, hid, hentry, hblocks]

/-- The JSON form of a graph reads back to the graph, and so does every document that comes of it by edits. -/
theorem ofJson?_variants (g : Graph) :
    ofJson? g.toJson = some g ∧ ∀ j, Relation.ReflTransGen Edit g.toJson j → ofJson? j = some g := by
  refine ⟨g.ofJson?_toJson, fun j hedits => ?_⟩
  induction hedits with
  | refl => exact g.ofJson?_toJson
  | tail _ hedit ih => rw [ofJson?_of_edit hedit, ih]

/-- A graph of one block, which calls a function with an unknown number, negated. -/
def reporting : Graph where
  functionId := "f"
  entry := none
  blocks := [{
    id := ⟨0⟩
    statements := [.call "report" [⟨.unary .neg .unknown, ⟨2, 8, 0⟩, false⟩] ⟨2, 1, 0⟩ ⟨2, 9, 0⟩]
    predecessors := []
    successors := [none] }]

/-- A document of `reporting`, with the given argument of the call and fields after the blocks. -/
def reportingWith (argument : Json) (rest : List (String × Json)) : Json :=
  .object (("blocks", .array [.object [("id", .nat 0), ("predecessors", .array []),
    ("statements", .array [.object [("Call", .object [("arguments", .array [argument]), ("callee", .text "report"),
      ("end_location", (Location.mk 2 9 0).toJson), ("location", (Location.mk 2 1 0).toJson)])]]),
    ("successors", .array [.null])]]) :: rest)

theorem reportingWith_edit {a a' : Json} (h : Argument.Edit a a') (rest : List (String × Json)) :
    Edit (reportingWith a rest) (reportingWith a' rest) := by
  refine @Json.RecordEdit.inside rules [] rest "blocks" _ _ _ rfl (@Json.ItemEdit.item Block.Edit [] [] _ _ ?_)
  refine @Json.RecordEdit.inside Block.rules [_, _] [_] "statements" _ _ _ rfl
    (@Json.ItemEdit.item Statement.Edit [] [] _ _ (.record (by decide) ?_))
  exact @Json.RecordEdit.inside (Statement.rules "Call") [] [_, _, _] "arguments" _ _ _ rfl
    (@Json.ItemEdit.item Argument.Edit [] [] _ _ h)

/-- The argument with its fields backwards, a note, no flag and no index, and the unknown number as an object. -/
def reportingArgument : Json :=
  .object [("value", .object [("Unary", .array [.text "Neg", .object [("Opaque", .null)]])]), ("note", .null),
    ("location", .object [("column", .nat 8), ("line", .nat 2)])]

theorem reportingArgument_edits :
    Relation.ReflTransGen Argument.Edit (Argument.mk (.unary .neg .unknown) ⟨2, 8, 0⟩ false).toJson
      reportingArgument := by
  refine .head (@Json.RecordEdit.drop Argument.rules [] [_, _] "by_reference" _ _ rfl rfl (by decide)) ?_
  refine .head (@Json.RecordEdit.inside Argument.rules [] [_] "location" _ _ _ rfl
    (@Json.RecordEdit.drop Location.rules [_] [_] "expansion_index" _ _ rfl rfl (by decide))) ?_
  refine .head (@Json.RecordEdit.inside Argument.rules [_] [] "value" _ _ _ rfl (.operand .unknown)) ?_
  refine .head (@Json.RecordEdit.add Argument.rules [_] [_] "note" .null rfl) ?_
  refine .single (.reorder (List.reverse_perm _).symm fun name _ => ?_)
  exact List.nodup_iff_count_le_one.1 (by decide) name

/-- All kinds of edits at once, the last of which leaves out the missing entry. -/
theorem ofJson?_variants_reporting :
    Relation.ReflTransGen Edit reporting.toJson (reportingWith reportingArgument [("function_id", .text "f")]) ∧
      ofJson? (reportingWith reportingArgument [("function_id", .text "f")]) = some reporting := by
  have hentry : Edit (reportingWith reportingArgument [("entry", .null), ("function_id", .text "f")])
      (reportingWith reportingArgument [("function_id", .text "f")]) :=
    @Json.RecordEdit.drop rules [_] [_] "entry" _ _ rfl rfl (by decide)
  have hedits : Relation.ReflTransGen Edit reporting.toJson
      (reportingWith reportingArgument [("function_id", .text "f")]) :=
    (reportingArgument_edits.lift (reportingWith · _) fun _ _ h => reportingWith_edit h _).tail hentry
  exact ⟨hedits, (ofJson?_variants reporting).2 _ hedits⟩

end Graph
end ConstantFlow
