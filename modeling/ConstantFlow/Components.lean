/-! Strongly connected components of a directed graph on the natural numbers, by one depth-first search. The
vertices whose component is still open form a stack; a component closes when the search leaves its first vertex,
and consists of the stack down to that vertex. Components are listed in the order in which they close. -/

namespace ConstantFlow

/-- How far the search for components has come. -/
structure Components where
  /-- The vertices found whose component is still open, the latest first. -/
  stack : List Nat
  /-- The components closed so far, the latest first. -/
  closed : List (List Nat)
deriving DecidableEq, Repr

namespace Components

/-- The number of stack entries below a vertex, if it is on the stack. -/
def depth? (v : Nat) : List Nat → Option Nat
  | [] => none
  | w :: rest => if w = v then some rest.length else depth? v rest

def isClosed (s : Components) (v : Nat) : Bool := s.closed.any (·.contains v)

def found (s : Components) (v : Nat) : Bool := s.stack.contains v || s.isClosed v

/-- Closes the component that starts at the given depth of the stack. -/
def close (s : Components) (depth : Nat) : Components :=
  let count := s.stack.length - depth
  ⟨s.stack.drop count, s.stack.take count :: s.closed⟩

/-- Looks along one edge. The number carried along is the least stack depth reached so far: an open vertex counts
with its depth, a new one with what the visit to it reaches, and a closed one not at all. -/
def look (visit : Nat → Components → Components × Nat) (reached : Components × Nat) (w : Nat) :
    Components × Nat :=
  let (s, low) := reached
  if s.isClosed w then (s, low)
  else match depth? w s.stack with
    | some depth => (s, min low depth)
    | none =>
      let (t, depth) := visit w s
      (t, min low depth)

/-- Visits a new vertex and everything new that it leads to; answers with the least stack depth reached. The fuel
bounds the length of the path of visits. -/
def visit (targets : Nat → List Nat) : Nat → Nat → Components → Components × Nat
  | 0, _, s => (s, s.stack.length)
  | fuel + 1, v, s =>
    let depth := s.stack.length
    let (t, low) := (targets v).foldl (look (visit targets fuel)) (⟨v :: s.stack, s.closed⟩, depth)
    if low = depth then (t.close depth, depth) else (t, low)

/-- Starts at a root, unless the search has already found it. -/
def start (targets : Nat → List Nat) (fuel : Nat) (s : Components) (root : Nat) : Components :=
  if s.found root then s else (visit targets fuel root s).1

/-- Searches from the roots in turn. The fuel has to reach the number of vertices. -/
def search (targets : Nat → List Nat) (fuel : Nat) (roots : List Nat) : Components :=
  roots.foldl (start targets fuel) ⟨[], []⟩

end Components
end ConstantFlow
