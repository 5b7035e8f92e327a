import DecisionModel.Number.Shortest
import DecisionModel.Text.Quoted
import DecisionModel.Text.Utf8
import DecisionModel.Value.Array

/-!
# How values are shown

Integers and doubles are shown in decimal, texts between quotes, masks in hexadecimal,
arrays as their elements between brackets.

A long array can be cut to a number of bytes.  The cut form ends in `...]`, and
elements are shown as long as that ending, with the comma before it, still fits.
-/

namespace DecisionModel

open Text

def Scalar.display : Scalar → String
  | .integer n => toString n
  | .unsigned n => toString n
  | .floating x => x.text
  | .text s => quoted s

namespace ValueArray

def display (a : ValueArray) : String :=
  "[" ++ ", ".intercalate (a.items.map Scalar.display) ++ "]"

/-- The text of one more element, with a comma unless it is the first. -/
def piece (first : Bool) (item : Scalar) : String :=
  if first then item.display else ", " ++ item.display

/-- The elements, in front of which `used` bytes stand, as long as they and the ending
    fit into `max` bytes. -/
def fitting (max used : Nat) (first : Bool) : List Scalar → List String
  | [] => []
  | item :: rest =>
    let text := piece first item
    if max < used + text.utf8ByteSize + ", ...]".utf8ByteSize then []
    else text :: fitting max (used + text.utf8ByteSize) false rest

/-- The array in at most `max` bytes, cut after the last element that fits. -/
def displayWithin (a : ValueArray) (max : Nat) : String :=
  if a.display.utf8ByteSize ≤ max then a.display
  else
    match fitting max "[".utf8ByteSize true a.items with
    | [] => "[...]"
    | pieces => "[" ++ String.join pieces ++ ", ...]"

end ValueArray

namespace Value

def display : Value → String
  | .scalar s => s.display
  | .mask m => m.text
  | .array a => a.display

/-- The value in at most `max` bytes if it is an array; other values are shown in full. -/
def displayWithin (v : Value) (max : Nat) : String :=
  match v with
  | .array a => a.displayWithin max
  | v => v.display

end Value

end DecisionModel
