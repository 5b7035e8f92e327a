import DecisionModel.ParseError

/-!
# Diagnostics

A diagnostic is a message with labels, each of which says something about a span of a
file.  The primary label says where the trouble is, secondary ones what else it has to do
with.
-/

namespace DecisionModel

inductive LabelStyle where
  | primary
  | secondary
  deriving DecidableEq, Repr

structure Label where
  style : LabelStyle
  span : Span
  message : String
  deriving DecidableEq, Repr

structure Diagnostic where
  message : String
  labels : List Label
  deriving DecidableEq, Repr

def ParseError.diagnostic (e : ParseError) : Diagnostic where
  message := s!"{e.kind.describe}: {e.message}"
  labels := ⟨.primary, e.span, e.label⟩ ::
    (e.related.map fun span => ⟨.secondary, span, ParseError.relatedLabel⟩).toList

end DecisionModel
