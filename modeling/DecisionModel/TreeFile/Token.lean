import DecisionModel.Source.Token

/-!
# Tokens of tree records

A record consists of field names, equals signs, quoted texts and commas.  Within quotes a
backslash takes the character after it along, so that quotes and backslashes can be
written; it takes every character but a line feed.

A character that starts no token is an error by itself.  A text whose closing quote is
missing is an error too, up to the point where it stops being a text: the end, or a
backslash that takes nothing along.
-/

namespace DecisionModel.TreeFile

open Text

inductive TokenKind where
  | error
  | name
  | equals
  | text
  | comma
  deriving DecidableEq, Repr

def TokenKind.describe : TokenKind → String
  | .error => "unexpected character"
  | .name => "a field name"
  | .equals => "`=`"
  | .text => "a quoted value"
  | .comma => "`,`"

def isSpace (c : Char) : Bool := c == ' ' || c == '\t' || c == '\r' || c == '\x0c'

def isNameStart (c : Char) : Bool := c.isAlpha || c == '_'

def isNameRest (c : Char) : Bool := c.isAlphanum || c == '_'

/-- What the line before a place leaves open, with its characters, last first. -/
inductive Open where
  | nothing
  | name (start : Nat) (reversed : List Char)
  | text (start : Nat) (reversed : List Char)
  /-- A text with a backslash behind it. -/
  | escape (start : Nat) (reversed : List Char)
  deriving DecidableEq, Repr

def closed (kind : TokenKind) (start : Nat) (reversed : List Char) : Token TokenKind :=
  .ofChars kind start reversed.reverse

/-- The errors of a text that a backslash ends. -/
def brokenText (start : Nat) (reversed : List Char) : List (Token TokenKind) :=
  [closed .error start reversed, .ofChars .error (start + byteLength reversed) ['\\']]

/-- The token that a character is by itself, and what it opens, where nothing is open. -/
def begin (place : Nat) (c : Char) : List (Token TokenKind) × Open :=
  if isSpace c then ([], .nothing)
  else if isNameStart c then ([], .name place [c])
  else if c = '"' then ([], .text place [c])
  else
    let kind : TokenKind := if c = '=' then .equals else if c = ',' then .comma else .error
    ([.ofChars kind place [c]], .nothing)

/-- The tokens that end before or with a character, and what is open after it. -/
def step (place : Nat) (c : Char) : Open → List (Token TokenKind) × Open
  | .nothing => begin place c
  | .name start reversed =>
    if isNameRest c then ([], .name start (c :: reversed))
    else
      let (tokens, next) := begin place c
      (closed .name start reversed :: tokens, next)
  | .text start reversed =>
    if c = '"' then ([closed .text start (c :: reversed)], .nothing)
    else if c = '\\' then ([], .escape start reversed)
    else ([], .text start (c :: reversed))
  | .escape start reversed =>
    if c = '\n' then
      let (tokens, next) := begin place c
      (brokenText start reversed ++ tokens, next)
    else ([], .text start (c :: '\\' :: reversed))

def close : Open → List (Token TokenKind)
  | .nothing => []
  | .name start reversed => [closed .name start reversed]
  | .text start reversed => [closed .error start reversed]
  | .escape start reversed => brokenText start reversed

def tokensFrom (state : Open) (place : Nat) : List Char → List (Token TokenKind)
  | [] => close state
  | c :: rest =>
    let (tokens, next) := step place c state
    tokens ++ tokensFrom next (place + c.utf8Size) rest

def tokens (offset : Nat) (record : List Char) : List (Token TokenKind) :=
  tokensFrom .nothing offset record

end DecisionModel.TreeFile
