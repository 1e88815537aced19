import ConstantFlow.Encoding.History
import ConstantFlow.History.Dump
import ConstantFlow.Json.Pretty
import ConstantFlow.Source
import ConstantFlow.Walk

/-! Answering questions about functions. An analyzer asks its source for the graph of a function, walks it, and keeps
the analysis, so that later questions about the function need neither source nor walk. A request that fails leaves
the analyses as they were. -/

namespace ConstantFlow

/-- The JSON form of an analysis, under the id by which it was asked for. -/
def Analysis.toJson {k : Kind} (functionId : String) (a : Analysis k) : Json :=
  .object [("blocks", .nat a.blockCount), ("function_id", .text functionId), ("history", a.history.toJson),
    ("kind", .text k.name), ("loops", .nat a.loops.count)]

/-- The analyses kept so far, by function id. -/
structure Analyzer (k : Kind) where
  settings : Settings
  analyses : Table (Analysis k) := Table.empty
deriving DecidableEq

inductive Request where
  /-- What is known about a variable just before a location. -/
  | query (functionId variableName : String) (location : Location)
  /-- What is known about the value of a call's argument. -/
  | resolve (functionId : String) (argument : Argument)
  | analyze (functionId : String)
  /-- The listing of a function's history. -/
  | dump (functionId : String)
  /-- The listings of all functions analyzed so far. -/
  | dumpAll
  /-- The JSON text of a function's analysis. -/
  | exportJson (functionId : String)
  | isCached (functionId : String)
  | cachedFunctions
  /-- Forgets all analyses. -/
  | clear
deriving DecidableEq, Repr

inductive Answer (k : Kind) where
  /-- A fact, or no opinion. -/
  | fact (found : Option (Fact k.Value))
  | analysis (found : Analysis k)
  | text (value : String)
  | truth (value : Bool)
  | names (values : List String)
  | done
deriving DecidableEq

/-- The answer to a request, with everything that the request leaves behind. -/
structure Reply (k : Kind) (σ : Type) (α : Type) where
  answer : Except AnalysisError α
  analyzer : Analyzer k
  /-- The state of the source. -/
  source : σ
  /-- The messages of the request, in order. -/
  notices : List Notice := []

namespace Analyzer
variable {k : Kind} {σ : Type}

/-- An analyzer without analyses; its settings have to be sound. -/
def new (k : Kind) (settings : Settings) : Except AnalysisError (Analyzer k) :=
  match settings.fault? with
  | some fault => .error (.badSettings fault)
  | none => .ok ⟨settings, Table.empty⟩

def readyNotices (a : Analyzer k) : List Notice := [.ready k a.settings.enableCache]

/-- Why a graph is refused, if it is. -/
def refusal? (settings : Settings) (functionId : String) (g : Graph) : Option AnalysisError :=
  match g.fault? with
  | some fault => some (.invalidGraph functionId fault)
  | none =>
    if settings.admits g.size then none else some (.tooManyBlocks functionId g.size settings.maxBlocks)

/-- Analyzes the graph that the source gave for a function. -/
def build (k : Kind) (settings : Settings) (functionId : String) (given : Except AnalysisError Graph) :
    Except AnalysisError (Analysis k × List Notice) :=
  match given with
  | .error e => .error e
  | .ok g =>
    match refusal? settings functionId g with
    | some e => .error e
    | none =>
      let (analysis, notices) := (Walk.of k settings g).analyze
      .ok (analysis, .walking k functionId g.size g.statementCount :: notices)

/-- The analysis that answers without the source, if the settings let one. -/
def kept? (a : Analyzer k) (functionId : String) : Option (Analysis k) :=
  if a.settings.enableCache then a.analyses.get? functionId else none

/-- The analysis of a function: one kept from before, or a new one, which is kept. -/
def analyze (source : Source σ) (a : Analyzer k) (s : σ) (functionId : String) : Reply k σ (Analysis k) :=
  match a.kept? functionId with
  | some analysis => ⟨.ok analysis, a, s, [.cacheHit functionId]⟩
  | none =>
    let (given, s) := source s functionId
    match build k a.settings functionId given with
    | .error e => ⟨.error e, a, s, []⟩
    | .ok (analysis, notices) =>
      ⟨.ok analysis, { a with analyses := a.analyses.insert functionId analysis }, s, notices⟩

def answerFrom (source : Source σ) (a : Analyzer k) (s : σ) (functionId : String)
    (answer : Analysis k → Answer k) : Reply k σ (Answer k) :=
  let reply := a.analyze source s functionId
  ⟨reply.answer.map answer, reply.analyzer, reply.source, reply.notices⟩

/-- The listings of all functions analyzed so far, in order of their ids. -/
def dumpAll (a : Analyzer k) : String :=
  String.join (a.analyses.toList.map fun p => p.2.history.dump p.1)

/-- Answers a request. An argument that folds is its own answer, and only a tracked variable is looked up. -/
def perform (source : Source σ) (a : Analyzer k) (s : σ) : Request → Reply k σ (Answer k)
  | .query f name location => a.answerFrom source s f fun r => .fact (r.history.lookup name location)
  | .resolve f argument =>
    match k.fold argument.value with
    | some value => ⟨.ok (.fact (some (.resolved value))), a, s, []⟩
    | none =>
      match argument.value with
      | .read v =>
        if k.tracks v.type then
          a.answerFrom source s f fun r => .fact (r.history.lookup v.name argument.location)
        else ⟨.ok (.fact none), a, s, []⟩
      | _ => ⟨.ok (.fact none), a, s, []⟩
  | .analyze f => a.answerFrom source s f .analysis
  | .dump f => a.answerFrom source s f fun r => .text (r.history.dump f)
  | .dumpAll => ⟨.ok (.text a.dumpAll), a, s, []⟩
  | .exportJson f => a.answerFrom source s f fun r => .text ((r.toJson f).pretty 0)
  | .isCached f => ⟨.ok (.truth (a.analyses.contains f)), a, s, []⟩
  | .cachedFunctions => ⟨.ok (.names a.analyses.names), a, s, []⟩
  | .clear => ⟨.ok .done, { a with analyses := Table.empty }, s, []⟩

end Analyzer
end ConstantFlow
