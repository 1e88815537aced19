/-! Positions in a source text: line, column, and the number of a token inside a macro expansion. Positions are
ordered by line, then column, then token number, and are written `line:column` or `line:column#index`. -/

namespace ConstantFlow

/-- A position. `index` counts the tokens that a macro at `line:column` expands to, from 1; it is 0 outside macros. -/
structure Location where
  line : UInt32
  column : UInt32
  index : UInt32 := 0
deriving DecidableEq, Repr

namespace Location

/-- Lexicographic order on line, column and index. -/
instance : LT Location where
  lt a b := a.line < b.line ∨
    a.line = b.line ∧ (a.column < b.column ∨ a.column = b.column ∧ a.index < b.index)

instance : DecidableLT Location := fun a b =>
  inferInstanceAs (Decidable (a.line < b.line ∨
    a.line = b.line ∧ (a.column < b.column ∨ a.column = b.column ∧ a.index < b.index)))

theorem lt_iff {a b : Location} : a < b ↔ a.line < b.line ∨
    a.line = b.line ∧ (a.column < b.column ∨ a.column = b.column ∧ a.index < b.index) := Iff.rfl

theorem lt_irrefl (a : Location) : ¬ a < a := by
  simp [lt_iff]

theorem lt_trans {a b c : Location} (hab : a < b) (hbc : b < c) : a < c := by
  simp only [lt_iff, UInt32.lt_iff_toNat_lt, ← UInt32.toNat_inj] at *
  omega

theorem lt_trichotomy (a b : Location) : a < b ∨ a = b ∨ b < a := by
  cases a with
  | mk l c i =>
      cases b with
      | mk l' c' i' =>
          simp only [lt_iff, mk.injEq, UInt32.lt_iff_toNat_lt, ← UInt32.toNat_inj]
          omega

/-- Positions in ascending order, with repeats kept. -/
def sort (locations : List Location) : List Location := locations.mergeSort fun a b => !decide (b < a)

def inExpansion (a : Location) : Bool := 0 < a.index

/-- The written form of a position: the index is left out when it is 0. -/
def text (a : Location) : String :=
  let position := a.line.toNat.repr ++ ":" ++ a.column.toNat.repr
  if a.inExpansion then position ++ "#" ++ a.index.toNat.repr else position

/-- The number written by decimal digits. -/
def digitsValue (digits : List Char) : Nat :=
  digits.foldl (fun n d => 10 * n + (d.toNat - 48)) 0

/-- Reads a 32-bit number: at least one decimal digit, after at most one plus sign. -/
def readNumber? (text : List Char) : Option UInt32 :=
  let digits := match text with
    | '+' :: rest => rest
    | _ => text
  if digits.isEmpty || !digits.all Char.isDigit then none
  else
    let n := digitsValue digits
    if n < UInt32.size then some n.toUInt32 else none

/-- Cuts a text at the first occurrence of a mark; `none` when the mark does not occur. -/
def cut? (mark : Char) : List Char → Option (List Char × List Char)
  | [] => none
  | c :: rest =>
    if c = mark then some ([], rest)
    else (cut? mark rest).map fun (before, after) => (c :: before, after)

/-- Reads `line:column`, with the index already known. -/
def readPosition? (text : List Char) (index : UInt32) : Option Location := do
  let (line, column) ← cut? ':' text
  return { line := ← readNumber? line, column := ← readNumber? column, index }

/-- A text that is not a position. -/
structure Malformed where
  text : String
deriving DecidableEq, Repr

def Malformed.message (m : Malformed) : String :=
  "Invalid source location '" ++ m.text ++ "' (expected line:column or line:column#index)"

/-- Reads `line:column` or `line:column#index`. -/
def read (text : String) : Except Malformed Location :=
  let found := match cut? '#' text.toList with
    | none => readPosition? text.toList 0
    | some (position, index) => (readNumber? index).bind (readPosition? position)
  match found with
  | some location => .ok location
  | none => .error ⟨text⟩

end Location
end ConstantFlow
