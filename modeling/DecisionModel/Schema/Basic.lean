import DecisionModel.Schema.Attribute

/-!
# Schemas

A schema is a list of attributes, one of which is the decision attribute: the one whose
value a tree decides.  Its codes are exactly `0, 1, …, n - 1`, so its value names are
also kept as a list by code.

Only slots of a schema ever change.
-/

namespace DecisionModel

structure Schema where
  attributes : List Attribute
  decision : AttrId
  /-- The names of the decision attribute's values, by code. -/
  decisionNames : List String
  decision_defined : decision.index < attributes.length
  deriving DecidableEq, Repr

inductive LookupError where
  | unknownAttribute (attr : String)
  | notEnumerated (attr : String)
  | unknownValue (attr value : String)
  | unknownCode (attr : String) (code : Int)
  deriving DecidableEq, Repr

def LookupError.message : LookupError → String
  | .unknownAttribute a => s!"unknown attribute `{a}`"
  | .notEnumerated a => s!"attribute `{a}` is not enumerated"
  | .unknownValue a v => s!"`{v}` is not a value of `{a}`"
  | .unknownCode a c => s!"`{a}` has no value with code {c}"

namespace Schema

def size (s : Schema) : Nat := s.attributes.length

def isEmpty (s : Schema) : Bool := s.attributes.isEmpty

def attribute? (s : Schema) (name : String) : Option Attribute :=
  s.attributes.find? (·.name == name)

def attributeById? (s : Schema) (id : AttrId) : Option Attribute := s.attributes[id.index]?

/-- The names of the attributes, in definition order. -/
def attributeNames (s : Schema) : List String := s.attributes.map (·.name)

def decisionAttribute (s : Schema) : Attribute :=
  s.attributes.get ⟨s.decision.index, s.decision_defined⟩

def decisionName? (s : Schema) (code : Int) : Option String :=
  if code < 0 then none else s.decisionNames[code.toNat]?

def decisionCode? (s : Schema) (name : String) : Option Int := s.decisionAttribute.codeOf? name

/-- The number of decision values: the decision codes are those below it. -/
def decisionCount (s : Schema) : Nat := s.decisionNames.length

/-! ### Lookups with a reason for failure -/

def find (s : Schema) (name : String) : Except LookupError Attribute :=
  match s.attribute? name with
  | some a => .ok a
  | none => .error (.unknownAttribute name)

def findEnumerated (s : Schema) (name : String) : Except LookupError Attribute := do
  let a ← s.find name
  if a.isEnumerated then .ok a else .error (.notEnumerated a.name)

/-- The values of an attribute by code; a continuous one has none. -/
def attributeValues (s : Schema) (name : String) : Except LookupError (List (String × Int)) :=
  (s.find name).map Attribute.sortedValues

def integerValue (s : Schema) (attr value : String) : Except LookupError Int := do
  let a ← s.findEnumerated attr
  match a.codeOf? value with
  | some code => .ok code
  | none => .error (.unknownValue a.name value)

def valueName (s : Schema) (attr : String) (code : Int) : Except LookupError String := do
  let a ← s.findEnumerated attr
  match a.nameOf? code with
  | some name => .ok name
  | none => .error (.unknownCode a.name code)

/-! ### Binding slots -/

def mapAttributes (s : Schema) (f : Attribute → Attribute) : Schema where
  attributes := s.attributes.map f
  decision := s.decision
  decisionNames := s.decisionNames
  decision_defined := by simpa using s.decision_defined

def defines (s : Schema) (name : String) : Bool := s.attributes.any (·.name == name)

/-- The schema with the named attribute at `slot`; unchanged if there is none. -/
def bindSlot (s : Schema) (name : String) (slot : Slot) : Schema :=
  s.mapAttributes fun a => if a.name = name then a.bind slot else a

/-- The schema with every attribute at the slot that has its position. -/
def bindById (s : Schema) : Schema :=
  s.mapAttributes fun a => a.bind (.index a.id.index)

end Schema

end DecisionModel
