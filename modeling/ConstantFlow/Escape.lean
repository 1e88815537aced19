import ConstantFlow.Yaml.Text

/-! Escaping of text: printable ASCII stands for itself, except that quotes and the backslash get a backslash in
front; tab, carriage return and line feed have letters of their own; every other character is written by its code
point in hexadecimal digits. Escaped text has no line break and no bare quote, and can be read back. -/

namespace ConstantFlow.Escape

def char (c : Char) : List Char :=
  if c = '\t' then ['\\', 't']
  else if c = '\r' then ['\\', 'r']
  else if c = '\n' then ['\\', 'n']
  else if c = '\'' ∨ c = '"' ∨ c = '\\' then ['\\', c]
  else if 0x20 ≤ c.toNat ∧ c.toNat ≤ 0x7e then [c]
  else ['\\', 'u', '\x7b'] ++ Nat.toDigits 16 c.toNat ++ ['\x7d']

def text (s : String) : String := String.ofList (s.toList.flatMap char)

/-- What a letter after a backslash stands for: a line feed, a tab, a carriage return, or itself. -/
def letter (c : Char) : Char :=
  if c = 'n' then '\n' else if c = 't' then '\t' else if c = 'r' then '\r' else c

/-- The character of a code point written in hexadecimal digits, after at most one plus sign. -/
def code? (text : List Char) : Option Char := do
  let digits := match text with
    | '+' :: rest => rest
    | _ => text
  let n ← Yaml.digits? 16 digits
  if n.isValidChar then some (Char.ofNat n) else none

/-- The text that an escaped text stands for. A code point runs to the next closing brace, or to the end. -/
def read? (escaped : List Char) : Option (List Char) :=
  match escaped with
  | [] => some []
  | c :: rest =>
    if c ≠ '\\' then (read? rest).map (c :: ·)
    else match rest with
      | [] => none
      | d :: rest =>
        if d ≠ 'u' then (read? rest).map (letter d :: ·)
        else do
          let digits := (rest.drop 1).takeWhile (· ≠ '\x7d')
          let c ← code? digits
          let after ← read? (rest.drop (digits.length + 2))
          return c :: after
termination_by escaped.length
decreasing_by all_goals simp_all; try omega

end ConstantFlow.Escape
