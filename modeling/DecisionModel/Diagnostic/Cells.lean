import DecisionModel.Text.Width

/-!
# Text in terminal cells

Below a line of text its parts are underlined, so it has to be known which cells each
character takes.  Tabs go up to the next multiple of four cells.
-/

namespace DecisionModel.Diagnostic

open Text

def tabStop : Nat := 4

/-- A character of a line with its place in bytes and its cells. -/
structure Cell where
  char : Char
  place : Nat
  width : Nat
  deriving DecidableEq, Repr

def Cell.stop (c : Cell) : Nat := c.place + c.char.utf8Size

/-- The cells of text at byte `place` that starts at cell `column`. -/
def cellsFrom (place column : Nat) : List Char → List Cell
  | [] => []
  | c :: rest =>
    let width := if c = '\t' then tabStop - column % tabStop else cellWidth c
    ⟨c, place, width⟩ :: cellsFrom (place + c.utf8Size) (column + width) rest

def cells (line : List Char) : List Cell := cellsFrom 0 0 line

def fill (c : Char) (width : Nat) : List Char := List.replicate width c

def Cell.print (c : Cell) : List Char := if c.char = '\t' then fill ' ' c.width else [c.char]

end DecisionModel.Diagnostic
