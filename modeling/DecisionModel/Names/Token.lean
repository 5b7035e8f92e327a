import DecisionModel.Source.Token

/-!
# Tokens of schema text

Schema text consists of names and of three separators.  A name is a run of characters
that are neither blank nor one of `,` `:` `.` `|`; a bar starts a comment that goes on to
the end of its line.  Every text is made of such pieces, so reading tokens cannot fail.
-/

namespace DecisionModel.Names

inductive TokenKind where
  | name
  | dot
  | colon
  | comma
  deriving DecidableEq, Repr

def TokenKind.describe : TokenKind → String
  | .name => "a name"
  | .dot => "`.`"
  | .colon => "`:`"
  | .comma => "`,`"

def isSpace (c : Char) : Bool :=
  c == ' ' || c == '\t' || c == '\r' || c == '\n' || c == '\x0c'

def separator? : Char → Option TokenKind
  | '.' => some .dot
  | ':' => some .colon
  | ',' => some .comma
  | _ => none

def isNameChar (c : Char) : Bool := !isSpace c && (separator? c).isNone && c != '|'

/-- What the text before a place leaves open. -/
inductive Open where
  | nothing
  /-- A name from `start` on, with its characters so far, last first. -/
  | name (start : Nat) (reversed : List Char)
  | comment
  deriving DecidableEq, Repr

def nameToken (start : Nat) (reversed : List Char) : Token TokenKind :=
  .ofChars .name start reversed.reverse

/-- The token that a character is by itself, and what it opens, where nothing is open. -/
def begin (place : Nat) (c : Char) : List (Token TokenKind) × Open :=
  match separator? c with
  | some kind => ([.ofChars kind place [c]], .nothing)
  | none =>
    if c = '|' then ([], .comment)
    else if isSpace c then ([], .nothing)
    else ([], .name place [c])

/-- The tokens that end before or with a character, and what is open after it. -/
def step (place : Nat) (c : Char) : Open → List (Token TokenKind) × Open
  | .nothing => begin place c
  | .comment => ([], if c = '\n' then .nothing else .comment)
  | .name start reversed =>
    if isNameChar c then ([], .name start (c :: reversed))
    else
      let (tokens, next) := begin place c
      (nameToken start reversed :: tokens, next)

def close : Open → List (Token TokenKind)
  | .name start reversed => [nameToken start reversed]
  | _ => []

def tokensFrom (state : Open) (place : Nat) : List Char → List (Token TokenKind)
  | [] => close state
  | c :: rest =>
    let (tokens, next) := step place c state
    tokens ++ tokensFrom next (place + c.utf8Size) rest

def tokens (text : List Char) : List (Token TokenKind) := tokensFrom .nothing 0 text

end DecisionModel.Names
