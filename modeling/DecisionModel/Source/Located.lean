import DecisionModel.Source.Span

/-!
# Faults with a place
-/

namespace DecisionModel

structure Located (φ : Type) where
  fault : φ
  span : Span
  /-- Another place that the fault has to do with. -/
  related : Option Span := none
  deriving DecidableEq, Repr

end DecisionModel
