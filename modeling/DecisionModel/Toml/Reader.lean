import DecisionModel.Toml.Value

/-!
# Reading pieces of TOML

A reader takes a piece off the front of the text, or fails.  Loops are bounded by the
length of the text, of which each turn takes at least one character.
-/

namespace DecisionModel.Toml

abbrev Reader := StateT (List Char) Option

namespace Reader

def rest : Reader (List Char) := get

def peek? : Reader (Option Char) := do return (← get).head?

def takeWhile (p : Char → Bool) : Reader (List Char) := do
  let cs ← get
  set (cs.dropWhile p)
  return cs.takeWhile p

def word (w : String) : Reader Unit := do
  let cs ← get
  if w.toList.isPrefixOf cs then set (cs.drop w.length) else failure

def word? (w : String) : Reader Bool := do
  let cs ← get
  if w.toList.isPrefixOf cs then
    set (cs.drop w.length)
    return true
  else return false

def one (p : Char → Bool) : Reader Char := do
  match ← get with
  | c :: cs => if p c then do set cs; return c else failure
  | [] => failure

/-- Whether a reader succeeds on a text. -/
def optional {α : Type} (r : Reader α) : Reader (Option α) := fun cs =>
  match r cs with
  | some (a, rest) => some (some a, rest)
  | none => some (none, cs)

/-! ### Space between the pieces -/

def isSpace (c : Char) : Bool := c == ' ' || c == '\t'

def space : Reader Unit := do let _ ← takeWhile isSpace

def newline : Reader Unit := do
  if ← word? "\n" then return () else word "\r\n"

def isCommentChar (c : Char) : Bool := c == '\t' || (0x20 ≤ c.toNat && c != '\x7f')

def comment : Reader Unit := do
  if ← word? "#" then let _ ← takeWhile isCommentChar

def lineEnd : Reader Unit := do
  if (← rest).isEmpty then return () else newline

/-- What may follow on the line of an entry or header. -/
def trailing : Reader Unit := do
  space
  comment
  lineEnd

/-- Space, comments and line ends, in at most `fuel` lines. -/
def gapWithin : Nat → Reader Unit
  | 0 => space
  | fuel + 1 => do
    space
    match ← optional (do comment; newline) with
    | some () => gapWithin fuel
    | none => return ()

def gap : Reader Unit := do gapWithin (← rest).length

end Reader

end DecisionModel.Toml
