import DecisionModel.Evaluation
import DecisionModel.Files.Path
import DecisionModel.Toml.Parser

/-!
# Configurations

    [model]
    names = "policy"
    tree = "policy"

    [bindings]
    level = 0
    count = 1

    [evaluation]
    string-equality = "strict"

A configuration says where the files of a model are, which slots its attributes have, and
how texts are compared.  An entry that cannot be used is reported and otherwise ignored.
-/

namespace DecisionModel

inductive ConfigDiagnostic where
  | unknownField (field : String)
  | invalidSlot (attr found : String)
  | invalidStringEquality (found : String)
  | unexpectedType (field found expected : String)
  deriving DecidableEq, Repr

def ConfigDiagnostic.message : ConfigDiagnostic → String
  | .unknownField field => s!"Unknown field {field}"
  | .invalidSlot attr found => s!"Invalid slot {found} for attribute \"{attr}\""
  | .invalidStringEquality found =>
    s!"Invalid string-equality {found}, expected \"strict\" or \"legacy\""
  | .unexpectedType field found expected =>
    s!"Expected a {expected} in field {field}, but found a {found}"

structure Config where
  /-- The stem of the schema file. -/
  names : Option String
  /-- The stem of the tree file. -/
  tree : Option String
  /-- The slots of attributes, in the order of the file. -/
  bindings : Option (List (String × Nat))
  evaluation : EvalOptions
  diagnostics : List ConfigDiagnostic
  deriving DecidableEq, Repr

namespace Config

def empty : Config := ⟨none, none, none, {}, []⟩

/-- The stem of the tree file, which is that of the schema file unless there is another. -/
def treeStem (c : Config) : Option String := c.tree <|> c.names

def report (c : Config) (d : ConfigDiagnostic) : Config :=
  { c with diagnostics := c.diagnostics ++ [d] }

/-! ### Reading entries -/

def addModelEntry (c : Config) (key : String) (value : Toml.Value) : Config :=
  if key = "names" ∨ key = "tree" then
    match value.asText? with
    | some stem => if key = "names" then { c with names := some stem } else { c with tree := some stem }
    | none => c.report (.unexpectedType ("model." ++ key) value.typeName "string")
  else c.report (.unknownField ("model." ++ key))

def slotIndex? : Toml.Value → Option Nat
  | .integer n => if 0 ≤ n ∧ n < Slot.limit then some n.toNat else none
  | _ => none

def addBinding (c : Config) (key : String) (value : Toml.Value) : Config :=
  match slotIndex? value with
  | some index => { c with bindings := some (c.bindings.getD [] ++ [(key, index)]) }
  | none => c.report (.invalidSlot key value.toText)

def addEvaluationEntry (c : Config) (key : String) (value : Toml.Value) : Config :=
  if key = "string-equality" then
    match value.asText? with
    | some "strict" => { c with evaluation.stringEquality := .strict }
    | some "legacy" => { c with evaluation.stringEquality := .legacy }
    | _ => c.report (.invalidStringEquality value.toText)
  else c.report (.unknownField ("evaluation." ++ key))

def addEntries (c : Config) (entries : Toml.Table)
    (add : Config → String → Toml.Value → Config) : Config :=
  entries.foldl (fun c (key, value) => add c key value) c

def addSection (c : Config) (key : String) (value : Toml.Value) : Config :=
  if key = "model" ∨ key = "bindings" ∨ key = "evaluation" then
    match value with
    | .table entries =>
      if key = "model" then c.addEntries entries addModelEntry
      else if key = "bindings" then
        { c with bindings := some [] }.addEntries entries addBinding
      else c.addEntries entries addEvaluationEntry
    | _ => c.report (.unexpectedType key value.typeName "table")
  else c.report (.unknownField key)

def ofTable (table : Toml.Table) : Config := empty.addEntries table addSection

def parse (document : String) : Option Config := (Toml.parse document).map ofTable

/-! ### Using a configuration -/

def resolvePaths (c : Config) (base : String) : Config :=
  { c with names := c.names.map (Path.join base), tree := c.tree.map (Path.join base) }

/-- Gives the attributes of a schema their slots: those that are listed, or to each the
    slot of its position if none are.  Names that are listed but not defined come back.
    There is no result if a listed index is out of range. -/
def applyBindings (c : Config) (schema : Schema) : Option (Schema × List String) :=
  match c.bindings with
  | none => some (schema.bindById, [])
  | some bindings =>
    bindings.foldlM (fun (schema, unknown) (name, index) => do
      let slot ← Slot.ofIndex? index
      if schema.defines name then some (schema.bindSlot name slot, unknown)
      else some (schema, unknown ++ [name])) (schema, [])

def formattedDiagnostics (c : Config) : Option String :=
  if c.diagnostics.isEmpty then none
  else some ("\n".intercalate (c.diagnostics.map fun d => "  " ++ d.message))

end Config

end DecisionModel
