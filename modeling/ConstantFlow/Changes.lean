import ConstantFlow.Loops
import ConstantFlow.Settings
import ConstantFlow.Update

/-! The variables that loops overwrite. They are collected before any fact is propagated, so that a walk can give up
their constants where control may come from the loop. -/

namespace ConstantFlow

/-- Which variables are overwritten in which loop, and in which block that branches to itself. -/
structure Changes where
  inLoops : List (LoopId × String)
  inSelfLoops : List (BlockId × String)
deriving DecidableEq, Repr

namespace Changes

def empty : Changes := ⟨[], []⟩

/-- Notes a variable that a loop overwrites; loop 0 is no loop and is passed over. -/
def record (c : Changes) (loop : LoopId) (name : String) : Changes :=
  if loop = 0 then c else { c with inLoops := c.inLoops ++ [(loop, name)] }

/-- Notes a variable that a block branching to itself overwrites. -/
def recordSelfLoop (c : Changes) (block : BlockId) (name : String) : Changes :=
  { c with inSelfLoops := c.inSelfLoops ++ [(block, name)] }

/-- The variables that a loop overwrites, in name order. -/
def loop (c : Changes) (id : LoopId) : List String :=
  sortNames (c.inLoops.filterMap fun p => if p.1 = id then some p.2 else none)

/-- The variables that a block branching to itself overwrites, in name order. -/
def selfLoop (c : Changes) (id : BlockId) : List String :=
  sortNames (c.inSelfLoops.filterMap fun p => if p.1 = id then some p.2 else none)

def isEmpty (c : Changes) : Bool := c.inLoops.isEmpty && c.inSelfLoops.isEmpty

end Changes

/-- The variables that the loops of a graph overwrite. Blocks that branch to themselves count only if the settings
say so. -/
def Graph.changes (k : Kind) (settings : Settings) (g : Graph) (loops : Loops) : Changes where
  inLoops := g.blocks.flatMap fun b =>
    if loops.of b.id = 0 then [] else (overwritten k b.statements).map fun name => (loops.of b.id, name)
  inSelfLoops := g.blocks.flatMap fun b =>
    if settings.invalidateSelfLoops && loops.selfLoop b.id then
      (overwritten k b.statements).map fun name => (b.id, name)
    else []

end ConstantFlow
