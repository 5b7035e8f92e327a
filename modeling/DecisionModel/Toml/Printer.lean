import DecisionModel.Number.Shortest
import DecisionModel.Toml.Value

/-!
# How TOML values are written

Every value is written on one line, except for texts with line feeds.  A text is written
in the plainest form that can hold it: between double quotes, between single quotes if
that saves escapes, and between three quotes if it has line feeds or quotes of both kinds.
A date is written as it is within other values, and as a table with one entry when it
stands alone.
-/

namespace DecisionModel.Toml

def padded (width n : Nat) : String :=
  let digits := Nat.toDigits 10 n
  String.ofList (List.replicate (width - digits.length) '0' ++ digits)

/-! ### Dates -/

def Date.text (d : Date) : String :=
  padded 4 d.year ++ "-" ++ padded 2 d.month ++ "-" ++ padded 2 d.day

/-- The fraction of a second, without zeros at its end. -/
def fractionText (nanosecond : Nat) : String :=
  if nanosecond = 0 then ""
  else "." ++ String.ofList (Double.trimZeros (padded 9 nanosecond).toList)

def Time.text (t : Time) : String :=
  padded 2 t.hour ++ ":" ++ padded 2 t.minute ++ ":" ++ padded 2 t.second ++
    fractionText t.nanosecond

def Offset.text : Offset → String
  | .utc => "Z"
  | .minutes n =>
    (if n < 0 then "-" else "+") ++ padded 2 (n.natAbs / 60) ++ ":" ++ padded 2 (n.natAbs % 60)

def Datetime.text (d : Datetime) : String :=
  ((d.date.map Date.text).getD "") ++
    (if d.date.isSome && d.time.isSome then "T" else "") ++
    ((d.time.map Time.text).getD "") ++ ((d.offset.map Offset.text).getD "")

/-! ### Numbers -/

/-- A float has a point even where it is whole. -/
def floatText (x : Double) : String :=
  match x with
  | .nan => "nan"
  | .infinite _ => x.text
  | .finite .. => if x.text.toList.contains '.' then x.text else x.text ++ ".0"

/-! ### Texts -/

structure TextTraits where
  singleQuotes : Bool
  doubleQuotes : Bool
  /-- Three double quotes in a row. -/
  tripleQuotes : Bool
  backslashes : Bool
  lineFeeds : Bool
  /-- Controls other than tabs and line feeds, which only escapes can give. -/
  controls : Bool

def needsEscape (c : Char) : Bool :=
  (c.toNat < 0x20 && c != '\t' && c != '\n') || c == '\x7f'

def hasTriple (quote : Char) : List Char → Bool
  | a :: b :: c :: rest =>
    (a == quote && b == quote && c == quote) || hasTriple quote (b :: c :: rest)
  | _ => false

def traits (cs : List Char) : TextTraits where
  singleQuotes := cs.contains '\''
  doubleQuotes := cs.contains '"'
  tripleQuotes := hasTriple '"' cs
  backslashes := cs.contains '\\'
  lineFeeds := cs.contains '\n'
  controls := cs.any needsEscape

def escapeChar (c : Char) : List Char :=
  match c with
  | '"' => ['\\', '"']
  | '\\' => ['\\', '\\']
  | '\x08' => ['\\', 'b']
  | '\t' => ['\\', 't']
  | '\n' => ['\\', 'n']
  | '\x0c' => ['\\', 'f']
  | '\r' => ['\\', 'r']
  | _ =>
    if needsEscape c then
      let digits := (Nat.toDigits 16 c.toNat).map Char.toUpper
      '\\' :: 'u' :: List.replicate (4 - digits.length) '0' ++ digits
    else [c]

/-- The characters between three double quotes, where only the third quote of a row has
    to be escaped; `quotes` stand in a row in front. -/
def escapeBlock (quotes : Nat) : List Char → List Char
  | [] => []
  | '"' :: rest =>
    if quotes = 2 then '\\' :: '"' :: escapeBlock 0 rest else '"' :: escapeBlock (quotes + 1) rest
  | '\n' :: rest => '\n' :: escapeBlock 0 rest
  | c :: rest => escapeChar c ++ escapeBlock 0 rest

def basicText (cs : List Char) : List Char := '"' :: cs.flatMap escapeChar ++ ['"']

def literalText (cs : List Char) : List Char := '\'' :: cs ++ ['\'']

/-- A text between three quotes.  One with line feeds starts on a line of its own. -/
def betweenThree (quote : Char) (lineFeeds : Bool) (inner : List Char) : List Char :=
  let quotes := List.replicate 3 quote
  quotes ++ (if lineFeeds then ['\n'] else []) ++ inner ++ quotes

def blockText (cs : List Char) : List Char :=
  betweenThree '"' (cs.contains '\n') (escapeBlock 0 cs)

def literalBlockText (cs : List Char) : List Char :=
  betweenThree '\'' (cs.contains '\n') cs

/-- A text in the first of its forms that suits it. -/
def textText (s : String) : String :=
  let cs := s.toList
  let t := traits cs
  let plain := !t.controls && !t.backslashes
  String.ofList
    (if plain && !t.doubleQuotes && !t.lineFeeds then basicText cs
    else if !t.controls && !t.singleQuotes && !t.lineFeeds then literalText cs
    else if plain && !t.tripleQuotes then blockText cs
    else if !t.controls && !hasTriple '\'' cs then literalBlockText cs
    else if t.lineFeeds then blockText cs
    else basicText cs)

/-! ### Keys and values -/

def isBareKeyChar (c : Char) : Bool := c.isAlphanum || c == '_' || c == '-'

def keyText (key : String) : String :=
  let cs := key.toList
  let t := traits cs
  if !cs.isEmpty && cs.all isBareKeyChar then key
  else if !t.controls && !t.backslashes && !t.doubleQuotes && !t.lineFeeds then
    String.ofList (basicText cs)
  else if !t.controls && !t.singleQuotes && !t.lineFeeds then String.ofList (literalText cs)
  else String.ofList (basicText cs)

def tableText (entries : List String) : String :=
  if entries.isEmpty then "\x7b\x7d" else "\x7b " ++ ", ".intercalate entries ++ " \x7d"

mutual

/-- A value within other values, on one line. -/
def Value.innerText : Value → String
  | .text s => textText s
  | .integer n => toString n
  | .float x => floatText x
  | .boolean b => if b then "true" else "false"
  | .datetime d => d.text
  | .array items => "[" ++ ", ".intercalate (itemTexts items) ++ "]"
  | .table entries => tableText (entryTexts entries)
termination_by structural v => v

def itemTexts : List Value → List String
  | [] => []
  | v :: rest => v.innerText :: itemTexts rest
termination_by structural items => items

def entryTexts : List (String × Value) → List String
  | [] => []
  | (key, v) :: rest => (keyText key ++ " = " ++ v.innerText) :: entryTexts rest
termination_by structural entries => entries

end

def Value.toText : Value → String
  | .datetime d => tableText [keyText datetimeKey ++ " = " ++ textText d.text]
  | v => v.innerText

end DecisionModel.Toml
