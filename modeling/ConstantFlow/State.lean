import ConstantFlow.Kind
import ConstantFlow.Table

/-! What is known about variables at one point of a function. A fact about a variable is either its constant or that
no constant is known; a state gives facts for some variables and says nothing about the others. -/

namespace ConstantFlow

/-- What is known about a value. -/
inductive Fact (α : Type) where
  /-- It need not be constant. -/
  | unresolved
  /-- It is this constant. -/
  | resolved (value : α)
deriving DecidableEq, Repr

namespace Fact
variable {α : Type}

/-- The constant, or that there is none. -/
def ofOption : Option α → Fact α
  | none => .unresolved
  | some v => .resolved v

def value? : Fact α → Option α
  | .unresolved => none
  | .resolved v => some v

/-- An unresolved fact comes before the resolved ones, which are ordered by their constants. -/
def Precedes [LT α] : Fact α → Fact α → Prop
  | .unresolved, .unresolved => False
  | .unresolved, .resolved _ => True
  | .resolved _, .unresolved => False
  | .resolved a, .resolved b => a < b

instance [LT α] : LT (Fact α) := ⟨Precedes⟩

instance [LT α] [DecidableLT α] : DecidableLT (Fact α)
  | .unresolved, .unresolved => inferInstanceAs (Decidable False)
  | .unresolved, .resolved _ => inferInstanceAs (Decidable True)
  | .resolved _, .unresolved => inferInstanceAs (Decidable False)
  | .resolved a, .resolved b => inferInstanceAs (Decidable (a < b))

theorem unresolved_lt_resolved [LT α] (v : α) : unresolved < resolved v := trivial

theorem not_lt_unresolved [LT α] (f : Fact α) : ¬ f < unresolved := by
  cases f with
  | unresolved => exact id
  | resolved _ => exact id

theorem resolved_lt_resolved [LT α] {a b : α} : resolved a < resolved b ↔ a < b := Iff.rfl

end Fact

/-- Facts about some variables, by name. -/
abbrev State (k : Kind) := Table (Fact k.Value)

namespace State
variable {k : Kind}

/-- What a variable keeps where several states meet: the constant that all of them agree on. -/
def meet (states : List (State k)) (name : String) : Fact k.Value :=
  match states with
  | [] => .unresolved
  | first :: rest =>
    match first.get? name with
    | none => .unresolved
    | some fact => if rest.all (·.get? name = some fact) then fact else .unresolved

/-- The state where several states meet. It names every variable that one of them names, and a variable keeps its
fact only if all of them hold it. -/
def merge (states : List (State k)) : State k :=
  Table.ofNames (states.flatMap Table.names) (meet states)

theorem merge_nil : merge [] = (Table.empty : State k) := rfl

theorem merge_singleton (s : State k) : merge [s] = s := by
  apply Table.ext_get?
  intro name
  rw [merge, Table.get?_ofNames, List.flatMap_singleton]
  cases hname : s.get? name with
  | none =>
      have hnot : name ∉ s.names := by simp [Table.mem_names, hname]
      rw [if_neg hnot]
  | some fact =>
      rw [if_pos (Table.mem_names.2 ⟨fact, hname⟩)]
      simp [meet, hname]

/-- The state in which control arrives with one of several states. A single state is carried on as it is. -/
def arrival : List (State k) → State k
  | [] => Table.empty
  | [s] => s
  | states => merge states

/-- No state and a single state need no case of their own. -/
theorem arrival_eq_merge (states : List (State k)) : arrival states = merge states := by
  match states with
  | [] => exact merge_nil.symm
  | [s] => exact (merge_singleton s).symm
  | _ :: _ :: _ => rfl

/-- Makes the named variables unresolved, also those the state did not name. -/
def forget (s : State k) (names : List String) : State k :=
  names.foldl (fun s name => s.insert name .unresolved) s

end State
end ConstantFlow
