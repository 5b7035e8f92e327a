import DecisionModel.Text.CodePoint

/-!
# Blank text

A character is blank when it has the White_Space property; a line of such characters
counts as empty.
-/

namespace DecisionModel.Text

/-- Ranges of the White_Space property. -/
def blankTable : CodePointTable :=
  #[(0x9, 0xd), (0x20, 0x20), (0x85, 0x85), (0xa0, 0xa0), (0x1680, 0x1680), (0x2000, 0x200a),
    (0x2028, 0x2029), (0x202f, 0x202f), (0x205f, 0x205f), (0x3000, 0x3000)]

def isBlank (c : Char) : Bool := blankTable.holds c

end DecisionModel.Text
