import ConstantFlow.Error
import ConstantFlow.Table

/-! Where the graphs of functions come from. -/

namespace ConstantFlow

/-- A source of graphs with a state of its own: asked for a function it answers, and may answer otherwise next time. -/
abbrev Source (σ : Type) := σ → String → Except AnalysisError Graph × σ

/-- Graphs at hand, by function id, for some of which the source is made to fail. -/
structure GraphStore where
  graphs : Table Graph := Table.empty
  /-- The functions for which asking fails, with the reason. -/
  failures : Table String := Table.empty
  /-- How often the store has been asked. -/
  asked : Nat := 0
deriving DecidableEq

namespace GraphStore

/-- Puts a graph under its function's id, in place of an earlier one. -/
def insert (s : GraphStore) (g : Graph) : GraphStore := { s with graphs := s.graphs.insert g.functionId g }

def ofList (graphs : List Graph) : GraphStore := graphs.foldl insert {}

/-- Makes every later request for a function fail. -/
def fail (s : GraphStore) (functionId reason : String) : GraphStore :=
  { s with failures := s.failures.insert functionId reason }

def answer (s : GraphStore) (functionId : String) : Except AnalysisError Graph :=
  match s.failures.get? functionId with
  | some reason => .error (.sourceFailed functionId reason)
  | none =>
    match s.graphs.get? functionId with
    | some g => .ok g
    | none => .error (.unknownFunction functionId)

/-- The store as a source, which counts how often it is asked. -/
def source : Source GraphStore := fun s functionId => (s.answer functionId, { s with asked := s.asked + 1 })

end GraphStore
end ConstantFlow
