import ConstantFlow.Escape
import ConstantFlow.History

/-! The listing of a history as text: a banner with the function's id, then each variable in name order with its
entries, one to a line. Constants are escaped, so a line holds exactly one entry. -/

namespace ConstantFlow.History

def unresolvedMark : String := "<UNRESOLVED>"

/-- The listed form of a constant. One that would read as the unresolved mark gets a backslash in front. -/
def valueText (k : Kind) (value : k.Value) : String :=
  let escaped := Escape.text (k.format value)
  if escaped = unresolvedMark then "\\" ++ escaped else escaped

def factText (k : Kind) : Fact k.Value → String
  | .unresolved => unresolvedMark
  | .resolved value => valueText k value

/-- The line that opens the listing of a function. -/
def banner (functionId : String) : String := "==== " ++ functionId ++ " ===="

def variableLine (name : String) : String := "  * " ++ name

def entryLine {k : Kind} (e : Entry k) : String :=
  "    - " ++ e.location.text ++ " '" ++ factText k e.fact ++ "' (" ++ e.origin.name ++ ")"

def lines {k : Kind} (functionId : String) (h : History k) : List String :=
  banner functionId :: h.tracks.toList.flatMap fun (name, track) =>
    variableLine name :: track.entries.map entryLine

/-- The listing of a history; every line ends with a line feed. -/
def dump {k : Kind} (functionId : String) (h : History k) : String :=
  String.join ((lines functionId h).map (· ++ "\n"))

end ConstantFlow.History
