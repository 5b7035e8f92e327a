import DecisionModel.Names.Fault
import DecisionModel.Source.File
import DecisionModel.Source.Located
import DecisionModel.TreeFile.Fault

/-!
# Parse errors

Schema and tree text are read up to the first fault.  The error says what the fault is,
where it is, and on which line.
-/

namespace DecisionModel

inductive ParseErrorKind where
  /-- The text is not well-formed. -/
  | malformed
  /-- The text is well-formed, but its decision attribute cannot be used. -/
  | inconsistent
  /-- The text names an attribute or value that the schema does not have. -/
  | unresolved
  deriving DecidableEq, Repr

def ParseErrorKind.describe : ParseErrorKind → String
  | .malformed => "syntax error"
  | .inconsistent => "inconsistent schema"
  | .unresolved => "unresolved reference"

inductive Fault where
  | names (fault : Names.Fault)
  | tree (fault : TreeFile.Fault)
  deriving DecidableEq, Repr

namespace Fault

def kind : Fault → ParseErrorKind
  | .names .noDecision => .inconsistent
  | .names (.unusableDecision _) => .inconsistent
  | .names _ => .malformed
  | .tree fault => if fault.isUnresolved then .unresolved else .malformed

def message : Fault → String
  | .names fault => fault.message
  | .tree fault => fault.message

def label : Fault → String
  | .names fault => fault.label
  | .tree fault => fault.label

end Fault

structure ParseError where
  fault : Fault
  span : Span
  /-- The number, from 1, of the line on which the span starts. -/
  line : Nat
  related : Option Span
  deriving DecidableEq, Repr

namespace ParseError

def ofLocated {φ : Type} (embed : φ → Fault) (file : SourceFile) (l : Located φ) : ParseError :=
  ⟨embed l.fault, l.span, file.lineNumber l.span.start, l.related⟩

def kind (e : ParseError) : ParseErrorKind := e.fault.kind

def message (e : ParseError) : String := e.fault.message

def label (e : ParseError) : String := e.fault.label

def relatedLabel : String := "defined here"

def summary (e : ParseError) : String :=
  s!"{e.kind.describe} on line {e.line}: {e.message}"

end ParseError

end DecisionModel
