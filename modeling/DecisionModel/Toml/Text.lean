import DecisionModel.Toml.Reader

/-!
# TOML texts

Texts stand between double quotes, with escapes, or between single quotes, without; three
quotes instead of one let them go over several lines.
-/

namespace DecisionModel.Toml

open Reader

def isBasicChar (c : Char) : Bool :=
  c == '\t' || (0x20 ≤ c.toNat && c != '"' && c != '\\' && c != '\x7f')

def isLiteralChar (c : Char) : Bool :=
  c == '\t' || (0x20 ≤ c.toNat && c != '\'' && c != '\x7f')

def hexValue? (c : Char) : Option Nat :=
  if c.isDigit then some (c.toNat - '0'.toNat)
  else if 'a' ≤ c && c ≤ 'f' then some (c.toNat - 'a'.toNat + 10)
  else if 'A' ≤ c && c ≤ 'F' then some (c.toNat - 'A'.toNat + 10)
  else none

def codePoint (digits : Nat) : Reader Char := do
  let cs ← rest
  let ds ← (cs.take digits).mapM fun c => (hexValue? c : Option Nat)
  if ds.length = digits then
    set (cs.drop digits)
    let n := ds.foldl (fun n d => 16 * n + d) 0
    if n.isValidChar then return Char.ofNat n else failure
  else failure

def escaped : Reader Char := do
  match ← one fun _ => true with
  | 'b' => return '\x08'
  | 't' => return '\t'
  | 'n' => return '\n'
  | 'f' => return '\x0c'
  | 'r' => return '\r'
  | '"' => return '"'
  | '\\' => return '\\'
  | 'u' => codePoint 4
  | 'U' => codePoint 8
  | _ => failure

/-- The text up to a double quote, in at most `fuel` characters. -/
def basicWithin : Nat → Reader (List Char)
  | 0 => failure
  | fuel + 1 => do
    match ← one fun _ => true with
    | '"' => return []
    | '\\' =>
      let c ← escaped
      return c :: (← basicWithin fuel)
    | c => if isBasicChar c then return c :: (← basicWithin fuel) else failure

def basic : Reader String := do
  word "\""
  return String.ofList (← basicWithin (← rest).length)

def literal : Reader String := do
  word "\'"
  let cs ← Reader.takeWhile isLiteralChar
  word "\'"
  return String.ofList cs

/-- The quotes at the end of a block: those before the three that close it. -/
def closing? (quote : Char) (cs : List Char) : Option (List Char × List Char) :=
  let count := min 5 (cs.takeWhile (· == quote)).length
  if 3 ≤ count then some (cs.take (count - 3), cs.drop count) else none

def blanksWithin : Nat → Reader Unit
  | 0 => space
  | fuel + 1 => do
    space
    if (← Reader.optional newline).isSome then blanksWithin fuel

/-- The end of a line behind a backslash, with the space of the lines that follow. -/
def continuation : Reader Unit := do
  space
  newline
  blanksWithin (← rest).length

/-- A block up to three double quotes, in at most `fuel` characters. -/
def basicBlockWithin : Nat → Reader (List Char)
  | 0 => failure
  | fuel + 1 => do
    match closing? '"' (← rest) with
    | some (quotes, after) => do
      set after
      return quotes
    | none =>
      if (← Reader.optional newline).isSome then return '\n' :: (← basicBlockWithin fuel)
      else
        match ← one fun _ => true with
        | '\\' =>
          if (← Reader.optional continuation).isSome then basicBlockWithin fuel
          else
            let c ← escaped
            return c :: (← basicBlockWithin fuel)
        | c =>
          if isBasicChar c || c == '"' then return c :: (← basicBlockWithin fuel) else failure

/-- A block up to three single quotes, in at most `fuel` characters. -/
def literalBlockWithin : Nat → Reader (List Char)
  | 0 => failure
  | fuel + 1 => do
    match closing? '\'' (← rest) with
    | some (quotes, after) => do
      set after
      return quotes
    | none =>
      if (← Reader.optional newline).isSome then return '\n' :: (← literalBlockWithin fuel)
      else
        let c ← one fun c => isLiteralChar c || c == '\''
        return c :: (← literalBlockWithin fuel)

def text : Reader String := do
  if ← word? "\"\"\"" then
    let _ ← Reader.optional newline
    return String.ofList (← basicBlockWithin (← rest).length)
  else if ← word? "\'\'\'" then
    let _ ← Reader.optional newline
    return String.ofList (← literalBlockWithin (← rest).length)
  else if (← peek?) = some '"' then basic
  else literal

end DecisionModel.Toml
