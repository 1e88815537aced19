import ConstantFlow.Graph

/-! Building a graph step by step. Each edge is entered at both of its ends, and the first block is the entry
unless a step names another. -/

namespace ConstantFlow.Graph

/-- The graph of a function without blocks. -/
def empty (functionId : String) : Graph := ⟨functionId, none, []⟩

/-- Appends a block, whose id is its position; the first block becomes the entry. -/
def addBlock (g : Graph) (statements : List Statement) : Graph :=
  let id := BlockId.ofIndex g.size
  { g with
    entry := g.entry.or (some id)
    blocks := g.blocks ++ [⟨id, statements, [], []⟩] }

def setEntry (g : Graph) (entry : BlockId) : Graph := { g with entry := some entry }

/-- Appends to the successors of one block and the predecessors of another, where these blocks exist. -/
def link (g : Graph) (source target : BlockId) (successor predecessor : Option BlockId) : Graph :=
  { g with
    blocks := (g.blocks.modify source.index fun b => { b with successors := b.successors ++ [successor] }).modify
      target.index fun b => { b with predecessors := b.predecessors ++ [predecessor] } }

/-- Adds an edge at both of its ends. -/
def addEdge (g : Graph) (source target : BlockId) : Graph :=
  g.link source target (some target) (some source)

/-- Adds an edge that can never be taken: both ends note it without a name. -/
def addDeadEdge (g : Graph) (source target : BlockId) : Graph := g.link source target none none

inductive Step where
  | block (statements : List Statement)
  | edge (source target : BlockId)
  | deadEdge (source target : BlockId)
  | entry (id : BlockId)
deriving DecidableEq, Repr

def step (g : Graph) : Step → Graph
  | .block statements => g.addBlock statements
  | .edge source target => g.addEdge source target
  | .deadEdge source target => g.addDeadEdge source target
  | .entry id => g.setEntry id

/-- The id that a step hands out: that of the block it appends. -/
def Step.result? (g : Graph) : Step → Option BlockId
  | .block _ => some (BlockId.ofIndex g.size)
  | _ => none

def build (functionId : String) (steps : List Step) : Graph := steps.foldl step (empty functionId)

/-- The ids that the steps hand out in turn, from a given graph on. -/
def results (g : Graph) : List Step → List (Option BlockId)
  | [] => []
  | s :: rest => s.result? g :: results (g.step s) rest

end ConstantFlow.Graph
