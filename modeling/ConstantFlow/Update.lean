import ConstantFlow.History
import ConstantFlow.Statement

/-! What statements do to tracked variables. A statement is read against the state before it and yields updates;
running a list of statements applies the updates in turn, and the names that are overwritten do not depend on the
state. -/

namespace ConstantFlow

/-- What a statement does to one variable. -/
structure Update (k : Kind) where
  name : String
  fact : Fact k.Value
  location : Location
  /-- Whether the variable is declared here: a declaration overwrites nothing. -/
  declares : Bool := false
deriving DecidableEq

namespace Statement
variable {k : Kind}

/-- The update by which a variable loses its constant. -/
def loses (location : Location) (v : Variable) : Update k := ⟨v.name, .unresolved, location, false⟩

/-- The tracked variables that lose their constant because an expression hands their address to a call. The variable
that the statement itself sets is left out: its own update holds afterwards. -/
def escapes (k : Kind) (e : Expr) (target : Variable) (location : Location) : List (Update k) :=
  (e.escaping.filter fun v => k.tracks v.type && v.name ≠ target.name).map (loses location)

/-- The constant that an assigning operator leaves, if the variable's constant is known and the operand folds. -/
def combined (k : Kind) (state : State k) (target : Variable) (op : CompoundOp) (value : Expr) : Option k.Value :=
  match state.get? target.name with
  | some (.resolved current) => (k.fold value).bind fun operand => k.combine op current operand
  | _ => none

/-- The updates of a statement, given the state before it. A declaration counts only if its initial value folds. -/
def updates (k : Kind) (state : State k) : Statement → List (Update k)
  | .declare _ none _ => []
  | .declare target (some initial) l =>
    escapes k initial target l ++
      if k.tracks target.type then
        match k.fold initial with
        | some value => [⟨target.name, .resolved value, l, true⟩]
        | none => []
      else []
  | .assign target value l =>
    escapes k value target l ++
      if k.tracks target.type then [⟨target.name, .ofOption (k.fold value), l, false⟩] else []
  | .combine target op value l =>
    escapes k value target l ++
      if k.tracks target.type then [⟨target.name, .ofOption (combined k state target op value), l, false⟩] else []
  | .call _ arguments _ finish =>
    ((arguments.flatMap Argument.writable).filter fun v => k.tracks v.type).map (loses finish)
  | .other _ => []

end Statement

namespace State
variable {k : Kind}

/-- The state after updates, applied in turn. -/
def apply (s : State k) (updates : List (Update k)) : State k :=
  updates.foldl (fun s u => s.insert u.name u.fact) s

/-- The updates that statements make in turn, each read against the state that the ones before it leave. -/
def trace (s : State k) : List Statement → List (Update k)
  | [] => []
  | st :: rest =>
    let us := st.updates k s
    us ++ trace (s.apply us) rest

/-- The state after a list of statements. -/
def run (s : State k) (statements : List Statement) : State k := s.apply (s.trace statements)

/-- The entries that a list of statements puts into the history: each fact of the state at the first statement, then
each update where it happens. Without statements there are none. -/
def entries (s : State k) (statements : List Statement) : List (String × Entry k) :=
  let incoming := match statements with
    | [] => []
    | first :: _ => s.toList.map fun (name, fact) => (name, ⟨first.location, .merge, fact⟩)
  incoming ++ (s.trace statements).map fun u => (u.name, ⟨u.location, .code, u.fact⟩)

end State

/-- The names of the tracked variables that statements overwrite, in order and with repeats. -/
def overwritten (k : Kind) (statements : List Statement) : List String :=
  (statements.flatMap fun st => (st.updates k Table.empty).filter fun u => !u.declares).map (·.name)

end ConstantFlow
