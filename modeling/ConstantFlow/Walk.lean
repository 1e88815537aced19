import ConstantFlow.Changes
import ConstantFlow.Graph.Order
import ConstantFlow.History.Squash
import ConstantFlow.Notice

/-! One walk over a graph. Blocks are visited once, in walking order. A block starts from the state where the blocks
before it meet, without the constants that a loop may have changed by then: its own loop's where control comes back
from a block not yet visited, any other loop's where control leaves it, and its own where it branches to itself. -/

namespace ConstantFlow

/-- The visit to one block. -/
structure Visit (k : Kind) where
  /-- The position of the block. -/
  index : Nat
  block : Block
  /-- The loop of the block. -/
  loop : LoopId
  /-- Whether control may come back to the block from inside its loop. -/
  reentered : Bool
  /-- The state in which the block starts. -/
  start : State k
  /-- The state in which the block ends. -/
  finish : State k
deriving DecidableEq

/-- What a walk goes by. -/
structure Walk (k : Kind) where
  settings : Settings
  graph : Graph
  loops : Loops
  changes : Changes

namespace Walk
variable {k : Kind}

def of (k : Kind) (settings : Settings) (graph : Graph) : Walk k :=
  let loops := graph.loops
  ⟨settings, graph, loops, graph.changes k settings loops⟩

/-- The state in which the block at a position ends, if it has been visited. -/
def finish? (visits : List (Visit k)) (i : Nat) : Option (State k) :=
  (visits.find? (·.index = i)).map (·.finish)

/-- The predecessors of a block other than the block itself. -/
def sources (b : Block) : List BlockId := b.livePredecessors.filter (· ≠ b.id)

/-- The end states of the predecessors visited so far. -/
def incoming (visits : List (Visit k)) (b : Block) : List (State k) :=
  (sources b).filterMap fun p => finish? visits p.index

/-- Whether a predecessor in the block's own loop is still to be visited. -/
def reentered (w : Walk k) (visits : List (Visit k)) (b : Block) : Bool :=
  (sources b).any fun p => (finish? visits p.index).isNone && w.loops.same p b.id

/-- The loops that control leaves on its way into a block. -/
def exited (w : Walk k) (b : Block) : List LoopId :=
  (b.livePredecessors.map w.loops.of).filter fun l => l ≠ 0 && l ≠ w.loops.of b.id

/-- The variables whose constants are given up at the start of a block. -/
def givenUp (w : Walk k) (visits : List (Visit k)) (b : Block) : List String :=
  (if w.reentered visits b then w.changes.loop (w.loops.of b.id) else []) ++
    (w.exited b).flatMap w.changes.loop ++
    (if w.settings.invalidateSelfLoops && w.loops.selfLoop b.id then w.changes.selfLoop b.id else [])

/-- The state in which a block starts. -/
def start (w : Walk k) (visits : List (Visit k)) (b : Block) : State k :=
  (State.arrival (incoming visits b)).forget (w.givenUp visits b)

theorem start_eq (w : Walk k) (visits : List (Visit k)) (b : Block) :
    w.start visits b = (State.merge (incoming visits b)).forget (w.givenUp visits b) := by
  rw [start, State.arrival_eq_merge]

/-- The visit to a block, given the visits before it. -/
def visit (w : Walk k) (visits : List (Visit k)) (i : Nat) (b : Block) : Visit k :=
  let start := w.start visits b
  ⟨i, b, w.loops.of b.id, w.reentered visits b, start, start.run b.statements⟩

/-- Visits the block at a position, if there is one. -/
def step (w : Walk k) (visits : List (Visit k)) (i : Nat) : List (Visit k) :=
  match w.graph.blocks[i]? with
  | none => visits
  | some b => visits ++ [w.visit visits i b]

def visits (w : Walk k) : List (Visit k) := w.graph.order.foldl w.step []

end Walk

namespace Visit
variable {k : Kind}

def entries (v : Visit k) : List (String × Entry k) := v.start.entries v.block.statements

def notices (v : Visit k) : List Notice :=
  (if v.reentered then [.backEdge v.block.id v.loop] else []) ++
    [.entering (BlockId.ofIndex v.index) v.start.size]

end Visit

/-- What is kept about a function once it has been walked. -/
structure Analysis (k : Kind) where
  functionId : String
  history : History k
  loops : Loops
  changes : Changes
  blockCount : Nat
deriving DecidableEq

namespace Walk
variable {k : Kind}

/-- The history of visits, as recorded. -/
def recorded (visits : List (Visit k)) : History k :=
  History.empty.recordAll (visits.flatMap Visit.entries)

/-- The analysis that a walk makes, with the messages about it. The history is squashed if the settings say so. -/
def analyze (w : Walk k) : Analysis k × List Notice :=
  let visits := w.visits
  let recorded := recorded visits
  let history := if w.settings.squashHistory then recorded.squash else recorded
  let scanned := Notice.scanned k w.graph.functionId w.graph.size w.loops.count
  let squashed := if w.settings.squashHistory then
      [Notice.squashed w.graph.functionId recorded.size history.size]
    else []
  (⟨w.graph.functionId, history, w.loops, w.changes, w.graph.size⟩,
    scanned :: visits.flatMap Visit.notices ++ squashed)

end Walk

/-- The analysis of a graph, sound or not. -/
def Graph.analyze (k : Kind) (settings : Settings) (g : Graph) : Analysis k :=
  (Walk.of k settings g).analyze.1

end ConstantFlow
