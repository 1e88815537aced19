import ConstantFlow.Components
import ConstantFlow.Graph

/-! Loops of a graph: the strongly connected components of two or more blocks, numbered from 1 in the order in which
the search closes them. A block that only branches to itself is in no loop and is marked apart. -/

namespace ConstantFlow

/-- The number of a loop; 0 stands for no loop. -/
abbrev LoopId := Nat

def LoopId.text (l : LoopId) : String := "L" ++ l.repr

/-- The loops of a graph. -/
structure Loops where
  /-- The positions in each loop; the loop numbered `n + 1` stands at `n`. -/
  cycles : List (List Nat)
  /-- For each position, whether the block there lists itself as a successor. -/
  selfLoops : List Bool
deriving DecidableEq, Repr

namespace Graph

/-- Where the search for components starts: at the entry, then at each block's id in turn; ids outside the graph
are passed over. -/
def roots (g : Graph) : List Nat :=
  ((g.entry.toList ++ g.blocks.map (·.id)).map BlockId.index).filter (· < g.size)

def components (g : Graph) : Components := Components.search g.targets g.size g.roots

def loops (g : Graph) : Loops where
  cycles := g.components.closed.reverse.filter (2 ≤ ·.length)
  selfLoops := g.blocks.map fun b => b.liveSuccessors.contains b.id

end Graph

namespace Loops

/-- The loop of the block at a position. -/
def atIndex (l : Loops) (i : Nat) : LoopId :=
  match l.cycles.findIdx? (·.contains i) with
  | some n => n + 1
  | none => 0

/-- The loop of a block, 0 if it is in none or does not exist. -/
def of (l : Loops) (b : BlockId) : LoopId := l.atIndex b.index

/-- Whether two blocks lie in one loop. -/
def same (l : Loops) (a b : BlockId) : Bool := l.of a ≠ 0 && l.of a = l.of b

/-- Whether a block branches to itself. -/
def selfLoop (l : Loops) (b : BlockId) : Bool := l.selfLoops[b.index]?.getD false

def count (l : Loops) : Nat := l.cycles.length

/-- The number of blocks classified. -/
def blockCount (l : Loops) : Nat := l.selfLoops.length

/-- The positions in a loop, ascending. -/
def members (l : Loops) (id : LoopId) : List Nat :=
  if id = 0 then [] else (List.range l.blockCount).filter fun i => l.atIndex i = id

end Loops
end ConstantFlow
