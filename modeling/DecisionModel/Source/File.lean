import DecisionModel.Source.Span
import DecisionModel.Text.Utf8

/-!
# Source files

A source file is a named text.  Its lines start at place 0 and after each line feed,
so a text has one more line than it has line feeds, and a line contains the line feed
that ends it.
-/

namespace DecisionModel

open Text

structure SourceFile where
  name : String
  content : String
  deriving DecidableEq, Repr

namespace SourceFile

def startsAfter (offset : Nat) : List Char → List Nat
  | [] => []
  | c :: rest =>
    let next := offset + c.utf8Size
    if c = '\n' then next :: startsAfter next rest else startsAfter next rest

def lineStarts (file : SourceFile) : List Nat :=
  0 :: startsAfter 0 file.content.toList

def length (file : SourceFile) : Nat := byteLength file.content.toList

def endSpan (file : SourceFile) : Span := .point file.length

def lineCount (file : SourceFile) : Nat := file.lineStarts.length

/-- The index, from 0, of the line that holds the place. -/
def lineIndex (file : SourceFile) (place : Nat) : Nat :=
  file.lineStarts.countP (· ≤ place) - 1

def lineNumber (file : SourceFile) (place : Nat) : Nat := file.lineIndex place + 1

/-- The span of a line, up to the start of the next. -/
def lineSpan? (file : SourceFile) (index : Nat) : Option Span :=
  (file.lineStarts[index]?).map fun start =>
    ⟨start, (file.lineStarts[index + 1]?).getD file.length⟩

def slice (file : SourceFile) (span : Span) : List Char :=
  takeBytes (span.stop - span.start) (dropBytes span.start file.content.toList)

end SourceFile

end DecisionModel
