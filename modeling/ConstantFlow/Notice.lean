import ConstantFlow.Kind
import ConstantFlow.Loops

/-! Messages about what the analysis does, each with the level of detail it belongs to. -/

namespace ConstantFlow

/-- The level of detail of a message. -/
inductive Level where
  | info | debug | trace
deriving DecidableEq, Repr

def Level.name : Level → String
  | .info => "INFO"
  | .debug => "DEBUG"
  | .trace => "TRACE"

/-- Something the analysis does. -/
inductive Notice where
  /-- An analyzer is ready. -/
  | ready (kind : Kind) (cache : Bool)
  /-- An analysis made before answers. -/
  | cacheHit (functionId : String)
  /-- A function is about to be walked. -/
  | walking (kind : Kind) (functionId : String) (blocks statements : Nat)
  /-- The loops of a function are known. -/
  | scanned (kind : Kind) (functionId : String) (blocks loops : Nat)
  /-- A block is entered again from inside its loop, whose variables are given up. -/
  | backEdge (block : BlockId) (loop : LoopId)
  /-- The walk enters a block with facts about so many variables. -/
  | entering (block : BlockId) (known : Nat)
  /-- A history has been squashed. -/
  | squashed (functionId : String) (before after : Nat)
deriving DecidableEq, Repr

namespace Notice

def level : Notice → Level
  | .ready .. | .walking .. => .info
  | .cacheHit .. | .scanned .. | .squashed .. => .debug
  | .backEdge .. | .entering .. => .trace

def text : Notice → String
  | .ready kind cache =>
    "constant_propagation_initialized (kind=" ++ kind.name ++ ", cache=" ++
      (if cache then "true" else "false") ++ ")"
  | .cacheHit functionId => "Constant propagation cache hit: " ++ functionId
  | .walking kind functionId blocks statements =>
    "Propagating " ++ kind.name ++ " constants: " ++ functionId ++ " (" ++ blocks.repr ++ " blocks, " ++
      statements.repr ++ " statements)"
  | .scanned kind functionId blocks loops =>
    "Loop scan for " ++ functionId ++ " (" ++ kind.name ++ "): " ++ blocks.repr ++ " blocks, " ++
      loops.repr ++ " loops"
  | .backEdge block loop => block.text ++ ": back edge target, invalidating " ++ loop.text
  | .entering block known => block.text ++ ": entering with " ++ known.repr ++ " variables"
  | .squashed functionId before after =>
    "Squashed history of " ++ functionId ++ ": " ++ before.repr ++ " -> " ++ after.repr ++ " entries"

end Notice
end ConstantFlow
