import DecisionModel.Schema.Basic

/-!
# How schemas are shown

One line for each attribute, in definition order: its id, its name, what it is, and the
names of its values with their codes.
-/

namespace DecisionModel

/-- What stands between the parentheses of an attribute's line. -/
def Attribute.tags (a : Attribute) (isDecision : Bool) : List String :=
  (if isDecision then ["decision"] else []) ++ [a.kind.name, a.valueType.name] ++
    (if a.slot.isBound then [a.slot.text] else [])

def Attribute.valueList (a : Attribute) : String :=
  match a.sortedValues with
  | [] => ""
  | values => ": " ++ ", ".intercalate (values.map fun (name, code) => s!"{name}={code}")

def Attribute.line (a : Attribute) (isDecision : Bool) : String :=
  let tags := ", ".intercalate (a.tags isDecision)
  s!"{a.id.text} {a.name} ({tags}){a.valueList}\n"

def Schema.display (s : Schema) : String :=
  let decision := s.decisionAttribute.id
  String.join (s.attributes.map fun a => a.line (a.id == decision))

end DecisionModel
