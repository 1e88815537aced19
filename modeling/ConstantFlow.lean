import ConstantFlow.Table
import ConstantFlow.Location
import ConstantFlow.Operator
import ConstantFlow.Expr
import ConstantFlow.Kind
import ConstantFlow.Statement
import ConstantFlow.Graph
import ConstantFlow.Graph.Builder
import ConstantFlow.Graph.Order
import ConstantFlow.Components
import ConstantFlow.Loops
import ConstantFlow.Loops.Tables
import ConstantFlow.State
import ConstantFlow.History
import ConstantFlow.History.Squash
import ConstantFlow.History.Dump
import ConstantFlow.History.Listing
import ConstantFlow.Escape
import ConstantFlow.Update
import ConstantFlow.Settings
import ConstantFlow.Settings.File
import ConstantFlow.Yaml
import ConstantFlow.Yaml.Text
import ConstantFlow.Yaml.Token
import ConstantFlow.Changes
import ConstantFlow.Notice
import ConstantFlow.Walk
import ConstantFlow.Json
import ConstantFlow.Json.Pretty
import ConstantFlow.Encoding.Expr
import ConstantFlow.Encoding.Graph
import ConstantFlow.Encoding.History
import ConstantFlow.Encoding.Settings
import ConstantFlow.Error
import ConstantFlow.Source
import ConstantFlow.Analyzer
import ConstantFlow.Proofs.Reachability
import ConstantFlow.Proofs.WalkingOrder
import ConstantFlow.Proofs.FrameOrder
import ConstantFlow.Proofs.StrongComponents
import ConstantFlow.Proofs.BlockStates
import ConstantFlow.Proofs.LoopClasses
import ConstantFlow.Proofs.LoopNumbers
import ConstantFlow.Proofs.WalkStates
import ConstantFlow.Proofs.LoopStarts
import ConstantFlow.Proofs.LoopEntry
import ConstantFlow.Proofs.Evaluation
import ConstantFlow.Proofs.ExactArithmetic
import ConstantFlow.Proofs.Execution
import ConstantFlow.Proofs.Soundness
import ConstantFlow.Proofs.HistoryLookup
import ConstantFlow.Proofs.BlockLookup
import ConstantFlow.Proofs.LocationText
import ConstantFlow.Proofs.EscapedText
import ConstantFlow.Proofs.ListingRoundTrip
import ConstantFlow.Proofs.Precision
import ConstantFlow.Proofs.Dominance
import ConstantFlow.Proofs.SuccessorOrder
import ConstantFlow.Proofs.HiddenSettings
import ConstantFlow.Proofs.AnalyzedOnce
import ConstantFlow.Proofs.SquashedForm
import ConstantFlow.Proofs.ChangePoints
import ConstantFlow.Proofs.EncodingRoundTrip
import ConstantFlow.Proofs.EncodingVariants
import ConstantFlow.Proofs.PredecessorSets
import ConstantFlow.Proofs.MergedStates
import ConstantFlow.Proofs.RecordingOrder
import ConstantFlow.Proofs.BuiltGraphs
import ConstantFlow.Proofs.LoopTables
import ConstantFlow.Proofs.TableSearch
