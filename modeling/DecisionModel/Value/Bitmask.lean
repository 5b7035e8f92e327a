/-!
# Bitmasks

A bitmask is a set of codes from 0 to 63, one bit for each.
-/

namespace DecisionModel

structure Bitmask where
  bits : BitVec 64
  deriving DecidableEq, Repr, Inhabited

namespace Bitmask

def width : Nat := 64

def empty : Bitmask := ⟨0⟩

def hasRoom (code : Int) : Bool := 0 ≤ code && code < width

/-- The mask with one more code, for a code that has a bit. -/
def insert (mask : Bitmask) (code : Nat) : Bitmask :=
  ⟨mask.bits ||| (1#64 <<< code)⟩

/-- The mask with one more code; `none` for a code without a bit. -/
def insert? (mask : Bitmask) (code : Int) : Option Bitmask :=
  if hasRoom code then some (mask.insert code.toNat) else none

/-- Whether the code is in the mask.  Codes without a bit never are. -/
def contains (mask : Bitmask) (code : Int) : Bool :=
  hasRoom code && mask.bits.getLsbD code.toNat

def codes (mask : Bitmask) : List Int :=
  ((List.range width).filter mask.bits.getLsbD).map Int.ofNat

/-- The number of codes in the mask, as the number of bits that are set. -/
def size (mask : Bitmask) : Nat := mask.bits.cpop.toNat

def isEmpty (mask : Bitmask) : Bool := mask.bits == 0

/-- A mask is shown as a hexadecimal number. -/
def text (mask : Bitmask) : String :=
  "0x" ++ String.ofList (Nat.toDigits 16 mask.bits.toNat)

end Bitmask

end DecisionModel
