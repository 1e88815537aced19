import ConstantFlow.Graph.Order
import ConstantFlow.Loops

/-! The search for loops on flat tables with one entry for each block. Blocks are numbered as they are found; a block on
the path of the search stands in a frame that remembers which of its successors comes next, so that a long path costs
no recursion. A step outside a table and a number of more than 32 bits have no outcome, and neither has a search that
does not end: all three are `none`. -/

namespace ConstantFlow

/-- The tables of the search, and what it has come to. -/
structure Tables where
  /-- When each block was found, if it was. -/
  foundAt : List (Option UInt32)
  /-- The earliest open block that each block is known to lead to, by the time when it was found. -/
  low : List UInt32
  /-- Which blocks are open. -/
  isOpen : List Bool
  /-- The open blocks, the latest first. -/
  stack : List BlockId
  /-- The number for the next block to be found. -/
  next : UInt32
  /-- The number of the loop of each block; 0 stands for no loop. -/
  loopIds : List UInt32
  /-- The number of loops so far. -/
  loopCount : UInt32
  /-- The components taken off the stack so far, the latest first. Nothing reads them. -/
  popped : List (List BlockId)
deriving DecidableEq, Repr

namespace Tables

/-- Tables for a number of blocks, none of which has been found. -/
def new (blocks : Nat) : Tables where
  foundAt := List.replicate blocks none
  low := List.replicate blocks 0
  isOpen := List.replicate blocks false
  stack := []
  next := 0
  loopIds := List.replicate blocks 0
  loopCount := 0
  popped := []

def write? {α : Type} (table : List α) (i : Nat) (a : α) : Option (List α) :=
  if i < table.length then some (table.set i a) else none

/-- Writes the same entry for each of some blocks. -/
def writeAll? {α : Type} (table : List α) (blocks : List BlockId) (a : α) : Option (List α) :=
  blocks.foldlM (fun table b => write? table b.index a) table

def succ? (n : UInt32) : Option UInt32 := if n.toNat + 1 < UInt32.size then some (n + 1) else none

/-- Numbers a new block and puts it on the stack. -/
def discover? (t : Tables) (b : BlockId) : Option Tables := do
  let foundAt ← write? t.foundAt b.index (some t.next)
  let low ← write? t.low b.index t.next
  let next ← succ? t.next
  let isOpen ← write? t.isOpen b.index true
  return { t with foundAt, low, next, isOpen, stack := b :: t.stack }

/-- Notes that a block leads to an open block found at a given time. -/
def lower? (t : Tables) (b : BlockId) (time : UInt32) : Option Tables := do
  let old ← t.low[b.index]?
  let low ← write? t.low b.index (if time < old then time else old)
  return { t with low }

/-- Parts a stack below a block: the blocks down to it, and the rest. -/
def partAt (root : BlockId) : List BlockId → List BlockId × List BlockId
  | [] => ([], [])
  | b :: rest =>
    if b = root then ([b], rest)
    else ((b :: (partAt root rest).1), (partAt root rest).2)

/-- Takes the component that starts at a block off the stack. A component of two or more blocks gets the next loop
number. -/
def close? (t : Tables) (root : BlockId) : Option Tables := do
  let members := (partAt root t.stack).1
  let isOpen ← writeAll? t.isOpen members false
  let closed := { t with isOpen, stack := (partAt root t.stack).2, popped := members :: t.popped }
  if members.length ≤ 1 then return closed
  let loopCount ← succ? t.loopCount
  let loopIds ← writeAll? t.loopIds members loopCount
  return { closed with loopCount, loopIds }

/-- Hands the mark of a block on to the block before it on the path, which leads wherever this one does. -/
def handOn? (t : Tables) (b : BlockId) : List Frame → Option Tables
  | [] => some t
  | parent :: _ => do t.lower? parent.block (← t.low[b.index]?)

/-- Leaves a block all of whose successors have been looked at. Its component closes if it leads to no block found
earlier. -/
def leave? (t : Tables) (b : BlockId) (path : List Frame) : Option Tables := do
  let t ← t.handOn? b path
  let low ← t.low[b.index]?
  let time ← t.foundAt[b.index]?
  if time = some low then t.close? b else return t

/-- Looks from the block of a frame at a successor. A new block extends the path. -/
def look? (t : Tables) (frame : Frame) (path : List Frame) (w : BlockId) : Option (Tables × List Frame) := do
  match ← t.foundAt[w.index]? with
  | none => return (← t.discover? w, ⟨w, 0⟩ :: frame :: path)
  | some time =>
    if ← t.isOpen[w.index]? then return (← t.lower? frame.block time, frame :: path)
    else return (t, frame :: path)

/-- One turn of the search: looks at the next successor of the last block on the path, or leaves that block. -/
def turn? (g : Graph) (t : Tables) (frame : Frame) (path : List Frame) : Option (Tables × List Frame) := do
  let b ← g.blocks[frame.block.index]?
  match b.successors[frame.next]? with
  | none => return (← t.leave? frame.block path, path)
  | some none => return (t, { frame with next := frame.next + 1 } :: path)
  | some (some w) =>
    if w.index < g.size then t.look? { frame with next := frame.next + 1 } path w
    else return (t, { frame with next := frame.next + 1 } :: path)

/-- Takes turns until no block is left on the path. -/
def follow? (g : Graph) (t : Tables) (path : List Frame) : Option Tables :=
  match path with
  | [] => some t
  | frame :: rest => do
    let turned ← turn? g t frame rest
    turned.1 |>.follow? g turned.2
partial_fixpoint

/-- Searches from a root, unless it lies outside the graph or has been found. -/
def start? (g : Graph) (t : Tables) (root : BlockId) : Option Tables := do
  if g.size ≤ root.index then return t
  match ← t.foundAt[root.index]? with
  | some _ => return t
  | none => follow? g (← t.discover? root) [⟨root, 0⟩]

end Tables

namespace Graph

/-- The blocks at which the search starts in turn: the entry, then every block's id. -/
def rootIds (g : Graph) : List BlockId := g.entry.toList ++ g.blocks.map (·.id)

/-- The tables after a search from some roots in turn. -/
def tables? (g : Graph) (roots : List BlockId) : Option Tables := roots.foldlM (Tables.start? g) (Tables.new g.size)

end Graph
end ConstantFlow
