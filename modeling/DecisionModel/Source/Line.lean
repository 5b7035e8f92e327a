import DecisionModel.Source.Span
import DecisionModel.Text.Blank
import DecisionModel.Text.Utf8

/-!
# Lines of text

Text is cut into lines behind its line feeds.  A line is kept without the line feed and
the carriage returns at its end, but with the place where it starts in its file.
-/

namespace DecisionModel

open Text

structure Line where
  text : List Char
  offset : Nat
  deriving DecidableEq, Repr

namespace Line

def isBlank (l : Line) : Bool := l.text.all Text.isBlank

def span (l : Line) : Span := ⟨l.offset, l.offset + byteLength l.text⟩

/-- The line that starts at `start`, given by its characters up to the line feed, last
    first. -/
def ofReversed (start : Nat) (reversed : List Char) : Line :=
  ⟨(reversed.dropWhile (· == '\r')).reverse, start⟩

/-- The lines of text at `place`, where a line is open that starts at `start`. -/
def split (start : Nat) (reversed : List Char) (place : Nat) : List Char → List Line
  | [] => if reversed.isEmpty then [] else [ofReversed start reversed]
  | c :: rest =>
    let next := place + c.utf8Size
    if c = '\n' then ofReversed start reversed :: split next [] next rest
    else split start (c :: reversed) next rest

def ofText (text : List Char) : List Line := split 0 [] 0 text

end Line

end DecisionModel
