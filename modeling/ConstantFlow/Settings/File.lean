import ConstantFlow.Settings
import ConstantFlow.Yaml

/-! Settings files: a version, and the settings under `propagation`. Fields that are left out have their defaults, and
there are no others. -/

namespace ConstantFlow.Settings

structure File where
  version : Option UInt32 := none
  propagation : Settings := {}
deriving DecidableEq, Repr

/-- Reads one entry of a mapping into what has been read so far. -/
abbrev ReadNext (α : Type) := α → String → Yaml → Option α

/-- Reads the entries of a mapping in turn. A key may not be repeated; a missing mapping has no entries. -/
def readMapping? {α : Type} (readNext : ReadNext α) (start : α) : Yaml → Option α
  | .scalar text plain => if plain && text.isEmpty then some start else none
  | .mapping entries =>
    if (entries.map (·.1)).Nodup then entries.foldlM (fun found e => readNext found e.1 e.2) start else none

def readField? : ReadNext Settings := fun s name value =>
  match name with
  | "enable_cache" => value.bool?.map fun b => { s with enableCache := b }
  | "squash_history" => value.bool?.map fun b => { s with squashHistory := b }
  | "max_blocks" => (value.natural? UInt64.size).map fun n => { s with maxBlocks := UInt64.ofNat n }
  | "invalidate_self_loops" => value.bool?.map fun b => { s with invalidateSelfLoops := b }
  | _ => none

def File.readField? : ReadNext File := fun f name value =>
  match name with
  | "version" =>
    if value.isNull then some { f with version := none }
    else (value.natural? UInt32.size).map fun n => { f with version := some (UInt32.ofNat n) }
  | "propagation" => (readMapping? Settings.readField? {} value).map fun s => { f with propagation := s }
  | _ => none

/-- Reads the contents of a settings file from its text. -/
def File.read? (text : String) : Option File := (Yaml.read? text).bind (readMapping? File.readField? {})

/-- Reads settings from the text of a file: first its form counts, then its version, then the block limit. -/
def read (text : String) : Except Fault Settings :=
  match File.read? text with
  | none => .error .malformed
  | some file =>
    match file.version with
    | none => .error .missingVersion
    | some v =>
      if v = version then
        match file.propagation.fault? with
        | some fault => .error fault
        | none => .ok file.propagation
      else .error (.unsupportedVersion v)

def boolText (b : Bool) : String := if b then "true" else "false"

def write (s : Settings) : String :=
  "version: " ++ version.toNat.repr ++ "\npropagation:\n" ++
    "  enable_cache: " ++ boolText s.enableCache ++ "\n" ++
    "  squash_history: " ++ boolText s.squashHistory ++ "\n" ++
    "  max_blocks: " ++ s.maxBlocks.toNat.repr ++ "\n" ++
    "  invalidate_self_loops: " ++ boolText s.invalidateSelfLoops ++ "\n"

end ConstantFlow.Settings
