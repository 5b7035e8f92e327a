import DecisionModel.Schema.Basic

/-!
# Building schemas

A builder collects attributes and their values; `SchemaBuilder.finish` names the decision
attribute and checks that its codes are `0, 1, …, n - 1`, each used once.
-/

namespace DecisionModel

inductive SchemaError where
  | missingDecision (attr : String)
  | decisionNotEnumerated (attr : String)
  | emptyDecision (attr : String)
  | missingCode (attr : String) (code : Int)
  | duplicateCode (attr : String) (code : Int)
  | duplicateValue (attr value : String)
  deriving DecidableEq, Repr

def SchemaError.message : SchemaError → String
  | .missingDecision a => s!"decision attribute `{a}` is not defined"
  | .decisionNotEnumerated a => s!"decision attribute `{a}` must be enumerated"
  | .emptyDecision a => s!"decision attribute `{a}` has no values"
  | .missingCode a c => s!"decision attribute `{a}` is missing code {c}"
  | .duplicateCode a c => s!"decision attribute `{a}` uses code {c} more than once"
  | .duplicateValue a v => s!"value `{v}` of `{a}` is already registered"

structure SchemaBuilder where
  attributes : List Attribute
  deriving DecidableEq, Repr

namespace SchemaBuilder

def empty : SchemaBuilder := ⟨[]⟩

def contains (b : SchemaBuilder) (name : String) : Bool := b.attributes.any (·.name == name)

/-- The id of the attribute with the given name, which is defined as a continuous one if
    it is new. -/
def define (b : SchemaBuilder) (name : String) : AttrId × SchemaBuilder :=
  match b.attributes.find? (·.name == name) with
  | some a => (a.id, b)
  | none =>
    let id : AttrId := ⟨b.attributes.length⟩
    (id, ⟨b.attributes ++ [.new name id]⟩)

def modify (b : SchemaBuilder) (id : AttrId) (f : Attribute → Attribute) : SchemaBuilder :=
  ⟨b.attributes.modify id.index f⟩

/-- The code of a value of an attribute.  A new value is registered with the number of
    values so far as its code.  There is no code for an id of another builder. -/
def pushValue (b : SchemaBuilder) (id : AttrId) (value : String) : Option Int × SchemaBuilder :=
  match b.attributes[id.index]? with
  | none => (none, b)
  | some a =>
    match a.codeOf? value with
    | some code => (some code, b)
    | none =>
      let code : Int := a.values.length
      (some code, b.modify id (·.register value code))

/-- Registers a value under the given code; a value can be registered once. -/
def insertValue (b : SchemaBuilder) (id : AttrId) (value : String) (code : Int) :
    Except SchemaError SchemaBuilder :=
  match b.attributes[id.index]? with
  | none => .ok b
  | some a =>
    if (a.codeOf? value).isSome then .error (.duplicateValue a.name value)
    else .ok (b.modify id (·.register value code))

/-! ### The decision attribute -/

/-- The least number from `candidate` on that is not a code, if there is one among
    `count` numbers. -/
def gapFrom (codes : List Int) : Nat → Nat → Nat
  | 0, candidate => candidate
  | count + 1, candidate =>
    if codes.contains (candidate : Int) then gapFrom codes count (candidate + 1) else candidate

def firstGap (codes : List Int) : Nat := gapFrom codes codes.length 0

/-- Puts the remaining values into the table of names by code. -/
def fillNames (attr : String) (codes : List Int) :
    List (String × Int) → List (Option String) → Except SchemaError (List (Option String))
  | [], names => .ok names
  | (value, code) :: rest, names =>
    if code < 0 ∨ names.length ≤ code.toNat then
      .error (.missingCode attr (firstGap codes))
    else if (names[code.toNat]?.join).isSome then .error (.duplicateCode attr code)
    else fillNames attr codes rest (names.set code.toNat (some value))

/-- The names of an attribute's values by code, if the codes are `0, 1, …, n - 1`. -/
def namesByCode (a : Attribute) : Except SchemaError (List String) := do
  let names ← fillNames a.name (a.values.map (·.2)) a.values
    (List.replicate a.values.length none)
  .ok (names.filterMap id)

def finish (b : SchemaBuilder) (decision : String) : Except SchemaError Schema :=
  let position := b.attributes.findIdx (·.name == decision)
  if h : position < b.attributes.length then
    let a := b.attributes[position]
    if a.isEnumerated = false then .error (.decisionNotEnumerated a.name)
    else if a.values.isEmpty then .error (.emptyDecision a.name)
    else
      match namesByCode a with
      | .error e => .error e
      | .ok names => .ok ⟨b.attributes, ⟨position⟩, names, h⟩
  else .error (.missingDecision decision)

end SchemaBuilder

end DecisionModel
