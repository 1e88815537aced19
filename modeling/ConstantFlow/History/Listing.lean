import ConstantFlow.History.Dump

/-! Reading listings back. Each line of a listing is told by its opening: it names a function, names a variable, or
holds an entry of the variable named last. A listing is read to the records of its entries, in their order; constants
are read as they are written, so that the listings of both kinds are read alike. -/

namespace ConstantFlow

/-- A fact about a constant told by its written form. -/
def Fact.written (k : Kind) : Fact k.Value → Fact String
  | .unresolved => .unresolved
  | .resolved value => .resolved (k.format value)

/-- An entry with its constant as it is written. -/
def Entry.written {k : Kind} (e : Entry k) : Entry .text := ⟨e.location, e.origin, e.fact.written k⟩

namespace Listing

/-- The lines of a text. A line feed ends a line, with the carriage return before it if there is one. -/
def splitLines : List Char → List (List Char)
  | [] => []
  | '\n' :: rest => [] :: splitLines rest
  | '\r' :: '\n' :: rest => [] :: splitLines rest
  | c :: rest =>
    match splitLines rest with
    | [] => [[c]]
    | line :: more => (c :: line) :: more

/-- Cuts a text at the first occurrence of a mark. -/
def cut? (mark : List Char) : List Char → Option (List Char × List Char)
  | [] => none
  | c :: rest =>
    match mark.isPrefixOf? (c :: rest) with
    | some after => some ([], after)
    | none => (cut? mark rest).map fun (before, after) => (c :: before, after)

/-- Cuts a text at the last occurrence of a mark. -/
def cutLast? (mark text : List Char) : Option (List Char × List Char) :=
  (cut? mark.reverse text.reverse).map fun (after, before) => (before.reverse, after.reverse)

def factFrom? (text : List Char) : Option (Fact String) :=
  if text = History.unresolvedMark.toList then some .unresolved
  else (Escape.read? text).map fun value => .resolved (String.ofList value)

/-- Reads what stands on the line of an entry behind its opening. -/
def entryFrom? (text : List Char) : Option (Entry .text) := do
  let (location, rest) ← cut? " '".toList text
  let (fact, rest) ← cutLast? "' (".toList rest
  let origin ← ")".toList.isSuffixOf? rest
  return {
    location := ← (Location.read (String.ofList location)).toOption
    origin := ← Origin.ofName? (String.ofList origin)
    fact := ← factFrom? fact }

/-- What a line of a listing says. -/
inductive Line where
  /-- The listing of a function starts here. -/
  | function (id : String)
  /-- The entries of a variable start here. -/
  | entries (name : String)
  | entry (e : Entry .text)
deriving DecidableEq

def Line.text : Line → String
  | .function id => History.banner id
  | .entries name => History.variableLine name
  | .entry e => History.entryLine e

def Line.read? (line : List Char) : Option Line :=
  match ("==== ".toList.isPrefixOf? line).bind (" ====".toList.isSuffixOf? ·) with
  | some id => some (.function (String.ofList id))
  | none =>
    match "  * ".toList.isPrefixOf? line with
    | some name => some (.entries (String.ofList name))
    | none =>
      match "    - ".toList.isPrefixOf? line with
      | some e => (entryFrom? e).map .entry
      | none => none

/-- An entry of a listing, with the function and the variable it is listed under. -/
structure Record where
  functionId : String
  name : String
  entry : Entry .text
deriving DecidableEq

/-- The records of lines, under the function and the variable named so far. -/
def records? (functionId name : Option String) : List Line → Option (List Record)
  | [] => some []
  | .function id :: rest => records? (some id) none rest
  | .entries name :: rest => records? functionId (some name) rest
  | .entry e :: rest => do
    let record := ⟨← functionId, ← name, e⟩
    let more ← records? functionId name rest
    return record :: more

/-- Reads a listing to the records of its entries. -/
def read? (text : String) : Option (List Record) := do
  let lines ← (splitLines text.toList).mapM Line.read?
  records? none none lines

end Listing

/-- The records of a function's history: its variables in name order, with their entries in order. -/
def History.records {k : Kind} (functionId : String) (h : History k) : List Listing.Record :=
  h.tracks.toList.flatMap fun (name, track) => track.entries.map fun e => ⟨functionId, name, e.written⟩

end ConstantFlow
