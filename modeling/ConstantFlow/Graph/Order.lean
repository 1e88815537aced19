import ConstantFlow.Graph

/-! The order in which the blocks of a graph are walked: a reverse post-order from the entry, then the blocks that
the entry does not reach, by position. It is given twice: by recursion, as positions, and by a loop on a stack of
frames, as ids. In the loop, a step outside a table and a path that never empties have no outcome. -/

namespace ConstantFlow

/-- How far a depth-first traversal has come. -/
structure Traversal where
  /-- The vertices met so far. -/
  seen : List Nat
  /-- The vertices left for good, the latest first. -/
  finished : List Nat
deriving DecidableEq, Repr

namespace Traversal

/-- Visits a new vertex: first everything new that it leads to, then it is finished. The fuel bounds the length of
the path of visits. -/
def visit (targets : Nat → List Nat) : Nat → Nat → Traversal → Traversal
  | 0, _, t => t
  | fuel + 1, v, t =>
    let after := (targets v).foldl (fun t w => if t.seen.contains w then t else visit targets fuel w t)
      ⟨v :: t.seen, t.finished⟩
    ⟨after.seen, v :: after.finished⟩

end Traversal

namespace Graph

/-- The positions that the entry reaches, in reverse post-order. -/
def reached (g : Graph) : List Nat :=
  match g.entryIndex? with
  | none => []
  | some e => (Traversal.visit g.targets g.size e ⟨[], []⟩).finished

/-- All positions, in walking order. -/
def order (g : Graph) : List Nat :=
  let reached := g.reached
  reached ++ (List.range g.size).filter fun i => !reached.contains i

end Graph

/-- A block on the path of a search through a graph. -/
structure Frame where
  block : BlockId
  /-- The position of the next successor to look at. -/
  next : Nat
deriving DecidableEq, Repr

/-- How far a depth-first loop has come. -/
structure Sweep where
  /-- Which blocks have been met. -/
  met : List Bool
  /-- The blocks left for good, the latest first. -/
  finished : List BlockId
deriving DecidableEq, Repr

namespace Sweep

def meet? (t : Sweep) (b : BlockId) : Option Sweep :=
  if b.index < t.met.length then some { t with met := t.met.set b.index true } else none

/-- One turn of the loop: looks at the next successor of the last block on the path, or leaves that block. A new block
extends the path. -/
def turn? (g : Graph) (t : Sweep) (frame : Frame) (path : List Frame) : Option (Sweep × List Frame) :=
  let passed : List Frame := { frame with next := frame.next + 1 } :: path
  match ((g.block? frame.block).elim [] Block.successors)[frame.next]? with
  | none => some ({ t with finished := frame.block :: t.finished }, path)
  | some none => some (t, passed)
  | some (some w) =>
    if w.index < g.size then do
      if ← t.met[w.index]? then return (t, passed)
      return (← t.meet? w, ⟨w, 0⟩ :: passed)
    else some (t, passed)

/-- Takes turns until no block is left on the path. -/
def follow? (g : Graph) (t : Sweep) (path : List Frame) : Option Sweep :=
  match path with
  | [] => some t
  | frame :: rest => do
    let turned ← turn? g t frame rest
    turned.1 |>.follow? g turned.2
partial_fixpoint

def start? (g : Graph) (t : Sweep) (root : BlockId) : Option Sweep := do
  (← t.meet? root) |>.follow? g [⟨root, 0⟩]

end Sweep

/-- The ids of all blocks in walking order, by the loop. Those that the entry does not reach go by their positions. -/
def Graph.orderIds? (g : Graph) : Option (List BlockId) := do
  let t ← (g.entry.filter (·.index < g.size)).toList.foldlM (Sweep.start? g) ⟨List.replicate g.size false, []⟩
  return t.finished ++ ((List.range g.size).filter fun i => t.met[i]? = some false).map BlockId.ofIndex

end ConstantFlow
