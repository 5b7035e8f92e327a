import DecisionModel.Value.Basic

/-!
# Attributes

An attribute is a column of the records that a tree classifies.  An enumerated one has
named values, each with an integer code; a continuous one holds numbers.

Callers lay their records out as they like and say where each attribute's value is
found: that place is the attribute's slot, and an attribute starts out without one.
-/

namespace DecisionModel

/-- The identity of an attribute in its schema: its position in definition order. -/
structure AttrId where
  index : Nat
  deriving DecidableEq, Repr

def AttrId.text (id : AttrId) : String := s!"#{id.index}"

inductive Slot where
  | unbound
  | index (n : Nat)
  deriving DecidableEq, Repr

namespace Slot

def limit : Nat := 4294967295

def ofIndex? (n : Nat) : Option Slot := if n < limit then some (.index n) else none

def outOfRange : String := "slot index out of range"

def isBound : Slot → Bool
  | .unbound => false
  | .index _ => true

def text : Slot → String
  | .unbound => "@unbound"
  | .index n => s!"@{n}"

end Slot

inductive AttributeKind where
  | enumerated
  | continuous
  deriving DecidableEq, Repr

namespace AttributeKind

def name : AttributeKind → String
  | .enumerated => "enumerated"
  | .continuous => "continuous"

/-- Records hold the code of an enumerated value, and a double for a continuous one. -/
def valueType : AttributeKind → ValueType
  | .enumerated => .integer
  | .continuous => .floating

end AttributeKind

structure Attribute where
  name : String
  id : AttrId
  kind : AttributeKind
  slot : Slot
  /-- The names of the values with their codes, in the order they were registered. -/
  values : List (String × Int)
  deriving DecidableEq, Repr

namespace Attribute

/-- A new attribute is continuous until a value is registered for it. -/
def new (name : String) (id : AttrId) : Attribute := ⟨name, id, .continuous, .unbound, []⟩

def isEnumerated (a : Attribute) : Bool := a.kind == .enumerated

def valueType (a : Attribute) : ValueType := a.kind.valueType

def valueCount (a : Attribute) : Nat := a.values.length

def codeOf? (a : Attribute) (value : String) : Option Int := a.values.lookup value

/-- The name of the first registered value with the given code. -/
def nameOf? (a : Attribute) (code : Int) : Option String :=
  (a.values.find? (·.2 == code)).map (·.1)

/-- The values by code; values of one code stay in the order they were registered. -/
def sortedValues (a : Attribute) : List (String × Int) :=
  a.values.mergeSort fun x y => x.2 ≤ y.2

/-- The name of the value with the given code, or the code where none has it. -/
def codeLabel (a : Attribute) (code : Int) : String := (a.nameOf? code).getD (toString code)

/-- The attribute with one more value; it is enumerated from then on. -/
def register (a : Attribute) (value : String) (code : Int) : Attribute :=
  { a with kind := .enumerated, values := a.values ++ [(value, code)] }

def bind (a : Attribute) (slot : Slot) : Attribute := { a with slot }

end Attribute

end DecisionModel
