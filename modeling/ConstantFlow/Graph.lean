import ConstantFlow.Statement

/-! Control flow graphs of functions. The blocks of a graph stand in a list, and a block is meant to carry its
position as its id; edges name blocks by id, and an edge proved never to be taken is kept without its end. A graph
value need not be sound: `fault?` finds what is wrong with it. -/

namespace ConstantFlow

/-- The number of a block. -/
structure BlockId where
  number : UInt32
deriving DecidableEq, Repr

namespace BlockId

/-- The position that a block of this id should have. -/
def index (b : BlockId) : Nat := b.number.toNat

/-- The id that belongs to a position. -/
def ofIndex (i : Nat) : BlockId := ⟨UInt32.ofNat i⟩

def text (b : BlockId) : String := "B" ++ b.index.repr

end BlockId

structure Block where
  id : BlockId
  statements : List Statement
  predecessors : List (Option BlockId)
  successors : List (Option BlockId)
deriving DecidableEq, Repr

namespace Block

/-- The predecessors over edges that can be taken. -/
def livePredecessors (b : Block) : List BlockId := b.predecessors.filterMap fun e => e

/-- The successors over edges that can be taken. -/
def liveSuccessors (b : Block) : List BlockId := b.successors.filterMap fun e => e

/-- The edges that a block names: those it sends out, then those it receives. -/
def edges (b : Block) : List (BlockId × BlockId) :=
  b.liveSuccessors.map (fun target => (b.id, target)) ++
    b.livePredecessors.map (fun source => (source, b.id))

end Block

structure Graph where
  functionId : String
  entry : Option BlockId
  blocks : List Block
deriving DecidableEq, Repr

namespace Graph

def size (g : Graph) : Nat := g.blocks.length

/-- The block at the position of an id. -/
def block? (g : Graph) (id : BlockId) : Option Block := g.blocks[id.index]?

/-- The number of edges that can be taken. -/
def edgeCount (g : Graph) : Nat := (g.blocks.flatMap Block.liveSuccessors).length

def statementCount (g : Graph) : Nat := (g.blocks.flatMap Block.statements).length

/-- The positions that control can pass to from a position; ends outside the graph are left out. -/
def targets (g : Graph) (i : Nat) : List Nat :=
  match g.blocks[i]? with
  | none => []
  | some b => (b.liveSuccessors.map BlockId.index).filter (· < g.size)

/-- The position of the entry block, if there is such a block. -/
def entryIndex? (g : Graph) : Option Nat :=
  (g.entry.map BlockId.index).filter (· < g.size)

/-- What can be wrong with a graph. -/
inductive Fault where
  /-- A block whose id is not its position. -/
  | misplaced (index : Nat) (id : BlockId)
  /-- An entry that is no block of the graph. -/
  | missingEntry (entry : BlockId)
  /-- Blocks, but no entry among them. -/
  | noEntry
  /-- An edge with an end outside the graph. -/
  | danglingEdge (source target : BlockId)
deriving DecidableEq, Repr

def Fault.message : Fault → String
  | .misplaced index id => "block at index " ++ index.repr ++ " carries id " ++ id.text
  | .missingEntry entry => "entry block " ++ entry.text ++ " does not exist"
  | .noEntry => "graph has blocks but no entry block"
  | .danglingEdge source target =>
    "edge " ++ source.text ++ " -> " ++ target.text ++ " points outside the graph"

/-- The first block whose id is not its position. -/
def misplaced? (g : Graph) : Option Fault :=
  g.blocks.zipIdx.findSome? fun (b, i) => if b.id.index = i then none else some (.misplaced i b.id)

def entryFault? (g : Graph) : Option Fault :=
  match g.entry with
  | some e => if (g.block? e).isSome then none else some (.missingEntry e)
  | none => if g.blocks.isEmpty then none else some .noEntry

/-- The first edge with an end outside the graph. -/
def danglingEdge? (g : Graph) : Option Fault :=
  (g.blocks.flatMap Block.edges).findSome? fun (source, target) =>
    if (g.block? source).isSome && (g.block? target).isSome then none
    else some (.danglingEdge source target)

/-- The first thing wrong with a graph: block ids are looked at first, then the entry, then the edges. -/
def fault? (g : Graph) : Option Fault :=
  g.misplaced?.or (g.entryFault?.or g.danglingEdge?)

end Graph
end ConstantFlow
