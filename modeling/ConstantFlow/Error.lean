import ConstantFlow.Graph
import ConstantFlow.Location
import ConstantFlow.Settings

/-! Why a request fails, and the texts that report it. The analysis itself never fails: what it cannot know it leaves
unresolved. -/

namespace ConstantFlow

/-- Why a function is not analyzed. -/
inductive AnalysisError where
  | unknownFunction (functionId : String)
  | invalidGraph (functionId : String) (fault : Graph.Fault)
  | tooManyBlocks (functionId : String) (blocks : Nat) (limit : UInt64)
  /-- The source of graphs failed, for a reason of its own. -/
  | sourceFailed (functionId : String) (reason : String)
  | badSettings (fault : Settings.Fault)
deriving DecidableEq, Repr

def AnalysisError.message : AnalysisError → String
  | .unknownFunction id => "Unknown function: '" ++ id ++ "'"
  | .invalidGraph id fault => "Invalid CFG for '" ++ id ++ "': " ++ fault.message
  | .tooManyBlocks id blocks limit =>
    "Function '" ++ id ++ "' has " ++ blocks.repr ++ " blocks, limit is " ++ limit.toNat.repr
  | .sourceFailed id reason => "CFG source failed for '" ++ id ++ "': " ++ reason
  | .badSettings fault => fault.message

/-- Any failure, by the part of the program it comes from. -/
inductive Error where
  | analysis (error : AnalysisError)
  | settings (fault : Settings.Fault)
  | location (error : Location.Malformed)
deriving DecidableEq, Repr

/-- The text of a failure, with the part it comes from in front. -/
def Error.message : Error → String
  | .analysis error => "Propagation error: " ++ error.message
  | .settings fault => "Configuration error: " ++ fault.message
  | .location error => "Location error: " ++ error.message

end ConstantFlow
