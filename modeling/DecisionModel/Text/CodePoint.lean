/-!
# Classes of characters

A class of characters is a table of inclusive ranges of code points, in ascending
order.  The tables themselves stand in the modules named for their property.
-/

namespace DecisionModel.Text

/-- A class of characters, as inclusive ranges of code points. -/
abbrev CodePointTable := Array (Nat × Nat)

def CodePointTable.holds (table : CodePointTable) (c : Char) : Bool :=
  table.any fun range => range.1 ≤ c.toNat && c.toNat ≤ range.2

end DecisionModel.Text
