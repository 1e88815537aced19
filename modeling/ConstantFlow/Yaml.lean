import ConstantFlow.Yaml.Token

/-! A reader for the part of YAML that settings need: mappings, nested by indentation or in braces, whose keys are
scalars. Comments, blank lines and an opening `---` are passed over; lists, anchors and tags are not read. -/

namespace ConstantFlow

/-- A scalar, marked as plain if it stands without quotes, or a mapping with its entries as written. -/
inductive Yaml where
  | scalar (text : String) (plain : Bool)
  | mapping (entries : List (String × Yaml))
deriving Repr, Inhabited

namespace Yaml

/-- The value of a key that is followed by nothing. -/
def nothing : Yaml := .scalar "" true

def keyText? : Yaml → Option String
  | .scalar text _ => some text
  | .mapping _ => none

/-! ### Values from tokens -/

/-- Whether a value by indentation is left out before these tokens. -/
def blockAbsent : List Token → Bool
  | .key :: _ | .value :: _ | .blockEnd :: _ => true
  | _ => false

/-- Whether a key or a value in braces is left out before these tokens. -/
def flowAbsent : List Token → Bool
  | .value :: _ | .flowEntry :: _ | .flowEnd :: _ => true
  | _ => false

mutual

/-- Reads a value, and leaves the tokens behind it. A mapping by indentation may not stand inside braces. The fuel
bounds the depth of nested calls. -/
def value? (block : Bool) : Nat → List Token → Option (Yaml × List Token)
  | 0, _ => none
  | fuel + 1, tokens =>
    match tokens with
    | .scalar text plain :: rest => some (.scalar text plain, rest)
    | .flowStart :: rest => (flowEntries? fuel true rest).map fun (entries, rest) => (.mapping entries, rest)
    | .blockStart :: rest =>
      if block then (blockEntries? fuel rest).map fun (entries, rest) => (.mapping entries, rest) else none
    | _ => none

/-- Reads the entries of a mapping by indentation, up to and with its end. -/
def blockEntries? : Nat → List Token → Option (List (String × Yaml) × List Token)
  | 0, _ => none
  | fuel + 1, tokens =>
    match tokens with
    | .blockEnd :: rest => some ([], rest)
    | .key :: rest => do
      let (key, rest) ← if blockAbsent rest then pure (nothing, rest) else value? true fuel rest
      let (value, rest) ← match rest with
        | .value :: rest => if blockAbsent rest then pure (nothing, rest) else value? true fuel rest
        | _ => pure (nothing, rest)
      let (entries, rest) ← blockEntries? fuel rest
      return ((← keyText? key, value) :: entries, rest)
    | _ => none

/-- Reads the entries of a mapping in braces, up to and with the closing brace. A comma divides them, and one may stand
before the closing brace; a key may stand alone. -/
def flowEntries? : Nat → Bool → List Token → Option (List (String × Yaml) × List Token)
  | 0, _, _ => none
  | fuel + 1, first, tokens =>
    let divided (found : Yaml × Yaml × List Token) : Option (List (String × Yaml) × List Token) := do
      let (key, value, rest) := found
      let (entries, rest) ← flowEntries? fuel false rest
      return ((← keyText? key, value) :: entries, rest)
    match first, tokens with
    | _, .flowEnd :: rest => some ([], rest)
    | false, .flowEntry :: .flowEnd :: rest => some ([], rest)
    | false, .flowEntry :: rest => (flowItem? fuel rest).bind divided
    | false, _ => none
    | true, rest => (flowItem? fuel rest).bind divided

/-- Reads one entry of a mapping in braces. -/
def flowItem? : Nat → List Token → Option (Yaml × Yaml × List Token)
  | 0, _ => none
  | fuel + 1, tokens =>
    match tokens with
    | .key :: rest => do
      let (key, rest) ← if flowAbsent rest then pure (nothing, rest) else value? false fuel rest
      match rest with
      | .value :: rest =>
        let absent := match rest with
          | .flowEntry :: _ | .flowEnd :: _ => true
          | _ => false
        let (value, rest) ← if absent then pure (nothing, rest) else value? false fuel rest
        return (key, value, rest)
      | _ => return (key, nothing, rest)
    | _ => do
      let (key, rest) ← value? false fuel tokens
      return (key, nothing, rest)

end

/-- Reads the tokens of one document. Its start may be marked, and has to be after a version; so may its end. -/
def ofTokens? (tokens : List Token) : Option Yaml := do
  let (marked, body) := match tokens with
    | .version :: .documentStart :: rest | .documentStart :: rest => (true, rest)
    | _ => (false, tokens)
  let absent := match body with
    | [] => true
    | .documentEnd :: _ => marked
    | _ => false
  let (value, rest) ← if absent then pure (nothing, body) else value? true (3 * body.length + 3) body
  if rest.all (· = .documentEnd) then some value else none

def read? (text : String) : Option Yaml := (Token.scan? text).bind ofTokens?

/-! ### Scalars -/

/-- Reads a natural number: decimal without leading zeros, or with `0x`, `0o` or `0b` in another base; a plus sign
may stand in front. -/
def naturalText? (text : List Char) : Option Nat :=
  let body := match text with
    | '+' :: rest => rest
    | _ => text
  match body with
  | '0' :: 'x' :: rest => digits? 16 rest
  | '0' :: 'o' :: rest => digits? 8 rest
  | '0' :: 'b' :: rest => digits? 2 rest
  | '0' :: _ :: _ => none
  | _ => digits? 10 body

/-- Reads a plain scalar as a natural number below a bound. -/
def natural? (bound : Nat) : Yaml → Option Nat
  | .scalar text true => (naturalText? text.toList).filter (· < bound)
  | _ => none

def bool? : Yaml → Option Bool
  | .scalar text true =>
    if ["true", "True", "TRUE"].contains text then some true
    else if ["false", "False", "FALSE"].contains text then some false
    else none
  | _ => none

/-- Whether a value stands for none. -/
def isNull : Yaml → Bool
  | .scalar text true => ["", "~", "null", "Null", "NULL"].contains text
  | _ => false

end Yaml
end ConstantFlow
