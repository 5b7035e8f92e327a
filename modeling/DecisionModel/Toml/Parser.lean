import DecisionModel.Toml.Datetime
import DecisionModel.Toml.Layout
import DecisionModel.Toml.Printer

/-!
# Reading TOML documents

A document is a list of entries and table headers, one on each line.  Arrays and inline
tables may be nested in each other, and keys dotted, less than eighty deep.
-/

namespace DecisionModel.Toml

open Reader

def depthLimit : Nat := 80

/-! ### Keys -/

def simpleKey : Reader String := do
  match ← peek? with
  | some '"' => basic
  | some '\'' => literal
  | _ =>
    let cs ← Reader.takeWhile isBareKeyChar
    if cs.isEmpty then failure else return String.ofList cs

/-- The parts of a key, of which there are at most `fuel` more. -/
def keyWithin : Nat → Reader (List String)
  | 0 => failure
  | fuel + 1 => do
    space
    let part ← simpleKey
    space
    if ← word? "." then return part :: (← keyWithin fuel) else return [part]

def key : Reader (List String × String) := do
  let parts ← keyWithin (depthLimit - 1)
  match parts.getLast? with
  | some last => return (parts.dropLast, last)
  | none => failure

/-! ### Values -/

/-- The items of an array behind its bracket, at most `fuel` of them. -/
def arrayItems (item : Reader Value) : Nat → Reader (List Value)
  | 0 => failure
  | fuel + 1 => do
    gap
    if ← word? "]" then return []
    else
      let v ← item
      gap
      if ← word? "," then return v :: (← arrayItems item fuel)
      else
        word "]"
        return [v]

/-- The entries of an inline table behind its brace, at most `fuel` of them. -/
def inlineEntries (item : Reader Value) (items : Items) : Nat → Reader Items
  | 0 => failure
  | fuel + 1 => do
    let (path, name) ← key
    word "="
    space
    let v ← item
    space
    match items.addEntry path name (.value v) with
    | none => failure
    | some items =>
      if ← word? "," then inlineEntries item items fuel
      else
        word "\x7d"
        return items

def inlineTable (item : Reader Value) : Reader Value := do
  space
  if ← word? "\x7d" then return .table []
  else return .table (toTable (← inlineEntries item [] (← rest).length))

/-- A value whose parts are read with `item`; without it there are no parts, so that the
    value is no array and no inline table. -/
def valueOver (item : Option (Reader Value)) : Reader Value := do
  match ← peek?, item with
  | some '"', _ | some '\'', _ => return .text (← text)
  | some '[', some item =>
    word "["
    return .array (← arrayItems item (← rest).length)
  | some '\x7b', some item =>
    word "\x7b"
    inlineTable item
  | some 't', _ =>
    word "true"
    return .boolean true
  | some 'f', _ =>
    word "false"
    return .boolean false
  | _, _ => (do return .datetime (← datetime)) <|> float <|> integer

/-- A value in which at most `depth` arrays and inline tables are nested. -/
def valueWithin : Nat → Reader Value
  | 0 => valueOver none
  | depth + 1 => valueOver (some (valueWithin depth))

def value : Reader Value := valueWithin (depthLimit - 1)

/-! ### Documents -/

def headerKey (opening closing : String) : Reader (List String × String) := do
  word opening
  let k ← key
  word closing
  trailing
  return k

def statement : Reader Statement := do
  if "[[".toList.isPrefixOf (← rest) then
    let (path, name) ← headerKey "[[" "]]"
    return .arrayHeader path name
  else if (← peek?) = some '[' then
    let (path, name) ← headerKey "[" "]"
    return .header path name
  else
    let (path, name) ← key
    word "="
    space
    let v ← value
    trailing
    return .entry path name v

/-- The statements of a document, at most `fuel` of them. -/
def statementsWithin : Nat → Reader (List Statement)
  | 0 => do if (← rest).isEmpty then return [] else failure
  | fuel + 1 => do
    gap
    let cs ← rest
    if cs.isEmpty then return []
    else if cs.head? = some '#' then
      comment
      lineEnd
      statementsWithin fuel
    else
      let s ← statement
      return s :: (← statementsWithin fuel)

/-- The table of a document, or `none` if the document is not well-formed.  A byte order
    mark in front does not count.  The document's own table is never a date. -/
def parse (document : String) : Option Table := do
  let cs := match document.toList with
    | '\ufeff' :: rest => rest
    | cs => cs
  let (statements, _) ← (statementsWithin (cs.length + 1)).run cs
  readEntryDates (← Layout.ofStatements statements)

end DecisionModel.Toml
