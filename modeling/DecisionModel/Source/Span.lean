/-!
# Spans

A span is a half-open range of byte places in a file.
-/

namespace DecisionModel

structure Span where
  /-- The first place of the span. -/
  start : Nat
  /-- The place after its last. -/
  stop : Nat
  deriving DecidableEq, Repr, Inhabited

namespace Span

def origin : Span := ⟨0, 0⟩

def point (place : Nat) : Span := ⟨place, place⟩

def cover (a b : Span) : Span := ⟨min a.start b.start, max a.stop b.stop⟩

/-- The span moved right by `offset`: from a place in a line to one in its file. -/
def shift (s : Span) (offset : Nat) : Span := ⟨s.start + offset, s.stop + offset⟩

end Span

end DecisionModel
