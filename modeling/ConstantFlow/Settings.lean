/-! Settings of the analysis, the limits on them, and what can be wrong with a settings file. -/

namespace ConstantFlow

structure Settings where
  /-- Keep the analysis of a function for later questions. -/
  enableCache : Bool := true
  /-- Drop the entries of a history that no lookup can tell apart. -/
  squashHistory : Bool := true
  /-- The most blocks that a function may have; 0 for no limit. -/
  maxBlocks : UInt64 := 0
  /-- Give up what a block overwrites where that block branches to itself. -/
  invalidateSelfLoops : Bool := true
deriving DecidableEq, Repr

namespace Settings

/-- Why settings are refused. -/
inductive Fault where
  /-- A block limit above the largest one. -/
  | limitOutOfRange (maxBlocks : UInt64)
  | missingVersion
  | unsupportedVersion (found : UInt32)
  /-- A text that does not have the form of a settings file. -/
  | malformed
deriving DecidableEq, Repr

def largestLimit : UInt64 := 1000000

def version : UInt32 := 1

def Fault.message : Fault → String
  | .limitOutOfRange maxBlocks =>
    "Invalid range for field 'max_blocks': " ++ maxBlocks.toNat.repr ++ " not in 1..=" ++
      largestLimit.toNat.repr ++ ". Use 0 to disable the limit"
  | .missingVersion =>
    "Missing 'version' field in configuration file. Add 'version: 1' to the top of your YAML file."
  | .unsupportedVersion found =>
    "Unsupported configuration version " ++ found.toNat.repr ++ ". Supported versions: " ++ version.toNat.repr
  | .malformed => "Malformed configuration file"

/-- What is wrong with settings that are in use. -/
def fault? (s : Settings) : Option Fault :=
  if largestLimit < s.maxBlocks then some (.limitOutOfRange s.maxBlocks) else none

/-- Whether a function with so many blocks is analyzed. -/
def admits (s : Settings) (blocks : Nat) : Bool := s.maxBlocks = 0 || blocks ≤ s.maxBlocks.toNat

end Settings
end ConstantFlow
