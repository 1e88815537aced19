/-! The texts that YAML scalars stand for. A plain scalar and a quoted one are words with gaps between them; a gap is
blanks, or line breaks with blanks around them, and line breaks are folded. -/

namespace ConstantFlow.Yaml

/-! ### Characters -/

def isBreak (c : Char) : Bool :=
  c = '\n' || c = '\r' || c.toNat = 0x85 || c.toNat = 0x2028 || c.toNat = 0x2029

def isBlank (c : Char) : Bool := c = ' ' || c = '\t'

def isByteOrderMark (c : Char) : Bool := c.toNat = 0xfeff

/-- The characters that a text may hold. -/
def isAllowed (c : Char) : Bool :=
  let n := c.toNat
  n = 0x09 || n = 0x0a || n = 0x0d || (0x20 ≤ n && n ≤ 0x7e) || n = 0x85 || (0xa0 ≤ n && n ≤ 0xfffd) || 0x10000 ≤ n

/-- The characters that divide what stands in brackets. -/
def isFlowMark (c : Char) : Bool := c = ',' || c = '[' || c = ']' || c = '\x7b' || c = '\x7d'

/-- Whether a text is at its end, at a blank or at a line break. -/
def atGap : List Char → Bool
  | [] => true
  | c :: _ => isBlank c || isBreak c

/-- The digit of a character in a base up to sixteen. -/
def digit? (base : Nat) (c : Char) : Option Nat :=
  let n :=
    if '0' ≤ c ∧ c ≤ '9' then c.toNat - '0'.toNat
    else if 'a' ≤ c ∧ c ≤ 'f' then c.toNat - 'a'.toNat + 10
    else if 'A' ≤ c ∧ c ≤ 'F' then c.toNat - 'A'.toNat + 10
    else base
  if n < base then some n else none

/-- Reads at least one digit in a base. -/
def digits? (base : Nat) (text : List Char) : Option Nat :=
  if text.isEmpty then none
  else text.foldlM (fun n c => (digit? base c).map fun d => base * n + d) 0

/-! ### Places -/

structure Place where
  /-- What follows the place. -/
  rest : List Char
  /-- The number of characters before it. -/
  index : Nat := 0
  /-- The number of line breaks before it. -/
  line : Nat := 0
  /-- The number of characters before it on its line. -/
  column : Nat := 0
deriving DecidableEq, Repr

namespace Place

/-- The place some characters further on the same line. -/
def skip (p : Place) (count : Nat) : Place :=
  { p with rest := p.rest.drop count, index := p.index + count, column := p.column + count }

/-- The place after a line break. A carriage return and the line feed behind it are one. -/
def skipBreak (p : Place) : Place :=
  match p.rest with
  | [] => p
  | '\r' :: '\n' :: rest => ⟨rest, p.index + 2, p.line + 1, 0⟩
  | _ :: rest => ⟨rest, p.index + 1, p.line + 1, 0⟩

/-- The place where the characters that satisfy a test end. -/
def skipWhile (p : Place) (test : Char → Bool) : Place := p.skip (p.rest.takeWhile test).length

/-- Whether the place is a line's start with a mark of three equal characters. -/
def atMark (p : Place) (c : Char) : Bool :=
  p.column = 0 && p.rest.take 3 = [c, c, c] && atGap (p.rest.drop 3)

/-- Whether a document starts or ends here by its mark. -/
def atDocumentMark (p : Place) : Bool := p.atMark '-' || p.atMark '.'

end Place

/-! ### Gaps -/

/-- The blanks and line breaks between two words. -/
structure Gap where
  /-- The blanks before the first line break, the latest first. -/
  blanks : List Char := []
  /-- The line breaks, the latest first. -/
  breaks : List Char := []
  /-- Whether a backslash ends the line before the gap, so that its line break does not count. -/
  joined : Bool := false
deriving DecidableEq, Repr

namespace Gap

/-- Whether the gap goes over the end of a line. -/
def isBroken (g : Gap) : Bool := g.joined || !g.breaks.isEmpty

/-- What the gap stands for: its blanks, a blank for one line break, one line break less for several. -/
def text (g : Gap) : List Char :=
  if g.joined then g.breaks.reverse
  else match g.breaks.reverse with
    | [] => g.blanks.reverse
    | ['\n'] => [' ']
    | '\n' :: more => more
    | breaks => breaks

end Gap

/-- The character that a line break is read as. -/
def breakText (c : Char) : Char := if c.toNat = 0x2028 || c.toNat = 0x2029 then c else '\n'

/-- Reads on in a gap. At the start of a line, a tab may not stand left of a column. -/
def gap? (left : Nat) : Nat → Gap → Place → Option (Gap × Place)
  | 0, _, _ => none
  | fuel + 1, g, p =>
    match p.rest with
    | [] => some (g, p)
    | c :: _ =>
      if isBlank c then
        if c = '\t' && g.isBroken && p.column < left then none
        else gap? left fuel (if g.isBroken then g else { g with blanks := c :: g.blanks }) (p.skip 1)
      else if isBreak c then gap? left fuel { g with breaks := breakText c :: g.breaks } p.skipBreak
      else some (g, p)

/-! ### Plain scalars -/

/-- The word at the start of a plain text: up to a gap, a colon before a gap, or, inside brackets, one of the dividing
characters. Inside brackets a colon right before one of these is an error. -/
def plainWord? (flow : Bool) : List Char → Option (List Char)
  | [] => some []
  | c :: rest =>
    if atGap (c :: rest) then some []
    else if flow && c = ':' && rest.head?.any (fun d => isFlowMark d || d = '?') then none
    else if c = ':' && atGap rest || flow && isFlowMark c then some []
    else (plainWord? flow rest).map (c :: ·)

/-- Reads on in a plain scalar: the text, whether it ends after a line break, and the place after it. Outside brackets
it ends with the first line that starts left of a column. -/
def plain? (flow : Bool) (left : Nat) : Nat → Gap → Place → Option (List Char × Bool × Place)
  | 0, _, _ => none
  | fuel + 1, before, p =>
    if p.atDocumentMark || p.rest.head? = some '#' then some ([], before.isBroken, p)
    else do
      let word ← plainWord? flow p.rest
      if word.isEmpty then return ([], before.isBroken, p)
      let text := before.text ++ word
      let (gap, next) ← gap? left (p.rest.length + 1) {} (p.skip word.length)
      if !flow && gap.isBroken && next.column < left then return (text, true, next)
      let (more, broken, next) ← plain? flow left fuel gap next
      return (text ++ more, broken, next)

/-! ### Quoted scalars -/

/-- The character that a letter after a backslash stands for. -/
def escaped? : Char → Option Char
  | '0' => some (Char.ofNat 0x00)
  | 'a' => some (Char.ofNat 0x07)
  | 'b' => some (Char.ofNat 0x08)
  | 't' | '\t' => some '\t'
  | 'n' => some '\n'
  | 'v' => some (Char.ofNat 0x0b)
  | 'f' => some (Char.ofNat 0x0c)
  | 'r' => some '\r'
  | 'e' => some (Char.ofNat 0x1b)
  | ' ' => some ' '
  | '"' => some '"'
  | '/' => some '/'
  | '\\' => some '\\'
  | 'N' => some (Char.ofNat 0x85)
  | '_' => some (Char.ofNat 0xa0)
  | 'L' => some (Char.ofNat 0x2028)
  | 'P' => some (Char.ofNat 0x2029)
  | _ => none

/-- The number of hexadecimal digits of a character's code after a letter. -/
def codeLength? : Char → Option Nat
  | 'x' => some 2
  | 'u' => some 4
  | 'U' => some 8
  | _ => none

/-- The character whose code stands at the start of a text. -/
def coded? (length : Nat) (text : List Char) : Option Char := do
  if text.length < length then none
  else
    let n ← digits? 16 (text.take length)
    if n < 0xd800 || 0xdfff < n && n < 0x110000 then some (Char.ofNat n) else none

/-- The word at a place in a quoted text, whether a backslash ends its line, and the place after it. -/
def quotedWord? (quote : Char) : Nat → Place → Option (List Char × Bool × Place)
  | 0, _ => none
  | fuel + 1, p =>
    let on (c : Char) (count : Nat) :=
      (quotedWord? quote fuel (p.skip count)).map fun (text, joined, next) => (c :: text, joined, next)
    match p.rest with
    | [] => some ([], false, p)
    | c :: rest =>
      if atGap (c :: rest) then some ([], false, p)
      else if c = quote then
        if quote = '\'' && rest.head? = some quote then on quote 2 else some ([], false, p)
      else if quote = '"' && c = '\\' then
        match rest with
        | [] => none
        | d :: code =>
          if isBreak d then some ([], true, (p.skip 1).skipBreak)
          else match escaped? d with
            | some e => on e 2
            | none => do
              let length ← codeLength? d
              let e ← coded? length code
              on e (length + 2)
      else on c 1

/-- Reads a quoted text up to and with its closing quote: the text and the place after it. A line of it may not look
like the start or the end of a document. -/
def quoted? (quote : Char) : Nat → Place → Option (List Char × Place)
  | 0, _ => none
  | fuel + 1, p =>
    if p.atDocumentMark || p.rest.isEmpty then none
    else do
      let (word, joined, next) ← quotedWord? quote (p.rest.length + 1) p
      if next.rest.head? = some quote then return (word, next.skip 1)
      let (gap, next) ← gap? 0 (next.rest.length + 1) { joined } next
      let (more, next) ← quoted? quote fuel next
      return (word ++ gap.text ++ more, next)

end ConstantFlow.Yaml
