import ConstantFlow.Yaml.Text

/-! The tokens of a YAML text. A mapping by indentation has no brackets: a token opens it where a key stands further in
than the mappings around it, and one closes it where a line starts further out. That a scalar was a key shows only at
the colon behind it, so that the tokens in front of a key are put in afterwards, at the place where it started. Lists,
anchors, tags and texts in block form have no token. -/

namespace ConstantFlow.Yaml

inductive Token where
  /-- A scalar, marked as plain if it stands without quotes. -/
  | scalar (text : String) (plain : Bool)
  /-- A key comes next. -/
  | key
  /-- The value of the last key comes next. -/
  | value
  /-- Opens a mapping by indentation. -/
  | blockStart
  | blockEnd
  /-- Opens a mapping in braces. -/
  | flowStart
  | flowEnd
  /-- A comma. -/
  | flowEntry
  /-- The version of YAML that the document is in. -/
  | version
  | documentStart
  | documentEnd
deriving DecidableEq, Repr

/-- A place where a key may have started. -/
structure KeyStart where
  place : Place
  /-- The number of tokens before it. -/
  tokens : Nat
  /-- Whether nothing but a key may stand there, since the entries of a mapping start in this column. -/
  required : Bool
deriving DecidableEq, Repr

/-- The number of characters that a key and the blanks behind it may take. -/
def keyLimit : Nat := 1024

/-- Whether a key may reach to a place: it stays on its line and has a limited length. -/
def KeyStart.reaches (k : KeyStart) (p : Place) : Bool := k.place.line = p.line && p.index ≤ k.place.index + keyLimit

/-- Where the scan of a text stands. -/
structure Scan where
  place : Place
  /-- The tokens so far. -/
  tokens : List Token := []
  /-- The columns of the mappings by indentation that are open, the innermost first. -/
  columns : List Nat := []
  /-- The last place where a key may have started, at the innermost level of brackets. -/
  keyStart : Option KeyStart := none
  /-- The same at the levels around it, one for each open bracket, the innermost first. -/
  outer : List (Option KeyStart) := []
  /-- Whether a key may start here. -/
  keyAllowed : Bool := true
deriving Repr

namespace Scan

def inFlow (s : Scan) : Bool := !s.outer.isEmpty

/-- The first column that lies inside the innermost mapping by indentation. -/
def left (s : Scan) : Nat :=
  match s.columns with
  | [] => 0
  | column :: _ => column + 1

/-- Adds a token that takes some characters. -/
def push (s : Scan) (t : Token) (count : Nat) : Scan :=
  { s with tokens := s.tokens ++ [t], place := s.place.skip count }

/-- Forgets where a key may have started; a required one has to be found. -/
def dropKey? (s : Scan) : Option Scan :=
  if s.keyStart.any (·.required) then none else some { s with keyStart := none }

/-- Notes that a key may start here, if it may. -/
def noteKey? (s : Scan) : Option Scan :=
  if s.keyAllowed then do
    let s ← s.dropKey?
    let required := !s.inFlow && s.columns.head? = some s.place.column
    return { s with keyStart := some ⟨s.place, s.tokens.length, required⟩ }
  else some s

/-- Forgets the places from which a key cannot reach to here. -/
def dropStale? (s : Scan) : Option Scan :=
  let kept (start : Option KeyStart) : Option (Option KeyStart) :=
    match start with
    | none => some none
    | some k => if k.reaches s.place then some (some k) else if k.required then none else some none
  do
    let keyStart ← kept s.keyStart
    let outer ← s.outer.mapM kept
    return { s with keyStart, outer }

/-- Closes the mappings whose column satisfies a test, from the innermost on. -/
def close (s : Scan) (test : Nat → Bool) : Scan :=
  { s with
    tokens := s.tokens ++ (s.columns.takeWhile test).map fun _ => .blockEnd
    columns := s.columns.dropWhile test }

/-- Opens a mapping at a column outside brackets, unless the innermost one is as far in; the token that opens it comes
after a number of the tokens so far. -/
def openAt (s : Scan) (column after : Nat) : Scan :=
  if !s.inFlow && s.left ≤ column then
    { s with tokens := s.tokens.insertIdx after .blockStart, columns := column :: s.columns }
  else s

/-- Passes over blanks, comments, line breaks and a byte order mark at the start of each line. Outside brackets a tab
may not stand where a key may start, and a key may start on each new line. -/
def skipGap : Nat → Scan → Scan
  | 0, s => s
  | fuel + 1, s =>
    let p := if s.place.column = 0 && s.place.rest.head?.any isByteOrderMark then s.place.skip 1 else s.place
    let p := p.skipWhile fun c => c = ' ' || c = '\t' && (s.inFlow || !s.keyAllowed)
    let p := if p.rest.head? = some '#' then p.skipWhile (fun c => !isBreak c) else p
    if p.rest.head?.any isBreak then
      skipGap fuel { s with place := p.skipBreak, keyAllowed := !s.inFlow || s.keyAllowed }
    else { s with place := p }

/-- Takes the mark of a document, which closes all mappings. -/
def documentMark? (s : Scan) (t : Token) : Option Scan := do
  let s ← (s.close fun _ => true).dropKey?
  return { s.push t 3 with keyAllowed := false }

/-- The number at a place, of nine digits at most, and the place after it. -/
def versionNumber? (p : Place) : Option (Nat × Place) :=
  let digits := p.rest.takeWhile Char.isDigit
  if digits.length ≤ 9 then (digits? 10 digits).map fun n => (n, p.skip digits.length) else none

/-- Takes a line that names the version of YAML, which has to be 1.1 or 1.2. -/
def version? (s : Scan) : Option Scan := do
  let s ← (s.close fun _ => true).dropKey?
  if s.place.rest.take 5 = "%YAML".toList && (s.place.rest.drop 5).head?.any isBlank then
    let (major, p) ← versionNumber? ((s.place.skip 5).skipWhile isBlank)
    if p.rest.head? ≠ some '.' then none
    let (minor, p) ← versionNumber? (p.skip 1)
    let p := p.skipWhile isBlank
    let p := if p.rest.head? = some '#' then p.skipWhile (fun c => !isBreak c) else p
    if major = 1 && (minor = 1 || minor = 2) && p.rest.head?.all isBreak then
      return { s.push .version 0 with place := p.skipBreak, keyAllowed := false }
    else none
  else none

/-- Takes an opening brace. -/
def flowStart? (s : Scan) : Option Scan := do
  let s ← s.noteKey?
  return { s.push .flowStart 1 with keyStart := none, outer := s.keyStart :: s.outer, keyAllowed := true }

/-- Takes a closing brace. -/
def flowEnd? (s : Scan) : Option Scan := do
  let s ← s.dropKey?
  let s := { s.push .flowEnd 1 with keyAllowed := false }
  match s.outer with
  | [] => return s
  | keyStart :: outer => return { s with keyStart, outer }

/-- Takes a comma. -/
def flowEntry? (s : Scan) : Option Scan := do
  let s ← s.dropKey?
  return { s.push .flowEntry 1 with keyAllowed := true }

/-- Takes a question mark in front of a key. -/
def key? (s : Scan) : Option Scan :=
  if s.inFlow || s.keyAllowed then do
    let s ← (s.openAt s.place.column s.tokens.length).dropKey?
    return { s.push .key 1 with keyAllowed := !s.inFlow }
  else none

/-- Takes the colon behind a key. -/
def value? (s : Scan) : Option Scan :=
  match s.keyStart with
  | some k =>
    let s := { s with tokens := s.tokens.insertIdx k.tokens .key, keyStart := none, keyAllowed := false }
    some ((s.openAt k.place.column k.tokens).push .value 1)
  | none =>
    if s.inFlow || s.keyAllowed then
      some { (s.openAt s.place.column s.tokens.length).push .value 1 with keyAllowed := !s.inFlow }
    else none

def quoted? (s : Scan) (quote : Char) : Option Scan := do
  let s ← s.noteKey?
  let (text, next) ← Yaml.quoted? quote (s.place.rest.length + 1) (s.place.skip 1)
  return { s.push (.scalar (String.ofList text) false) 0 with place := next, keyAllowed := false }

def plain? (s : Scan) : Option Scan := do
  let s ← s.noteKey?
  let (text, broken, next) ← Yaml.plain? s.inFlow s.left (s.place.rest.length + 1) {} s.place
  return { s.push (.scalar (String.ofList text) true) 0 with place := next, keyAllowed := broken }

/-- Whether a plain scalar may start with a character before a text. -/
def startsPlain (s : Scan) (c : Char) (rest : List Char) : Bool :=
  if c = '-' then !atGap rest
  else if c = '?' || c = ':' then !s.inFlow && !atGap rest
  else !(isBlank c || isBreak c || isFlowMark c || "#&*!|>'\"%@`".toList.contains c)

/-- Takes the token that starts with a character before a text. -/
def take? (s : Scan) (c : Char) (rest : List Char) : Option Scan :=
  if c = '%' && s.place.column = 0 then s.version?
  else if s.place.atMark '-' then s.documentMark? .documentStart
  else if s.place.atMark '.' then s.documentMark? .documentEnd
  else if c = '\x7b' then s.flowStart?
  else if c = '\x7d' then s.flowEnd?
  else if c = ',' then s.flowEntry?
  else if c = '?' && (s.inFlow || atGap rest) then s.key?
  else if c = ':' && (s.inFlow || atGap rest) then s.value?
  else if c = '\'' || c = '"' then s.quoted? c
  else if s.startsPlain c rest then s.plain?
  else none

/-- Takes all tokens. The fuel bounds their number: each one takes a character. -/
def run? : Nat → Scan → Option (List Token)
  | 0, _ => none
  | fuel + 1, s => do
    let s ← (s.skipGap (s.place.rest.length + 1)).dropStale?
    let s := if s.inFlow then s else s.close (s.place.column < ·)
    match s.place.rest with
    | [] => return (← (s.close fun _ => true).dropKey?).tokens
    | c :: rest => run? fuel (← s.take? c rest)

end Scan

def Token.scan? (text : String) : Option (List Token) :=
  let chars := text.toList
  if chars.all isAllowed then Scan.run? (chars.length + 1) { place := ⟨chars, 0, 0, 0⟩ } else none

end ConstantFlow.Yaml
