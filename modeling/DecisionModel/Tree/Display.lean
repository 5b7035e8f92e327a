import DecisionModel.Tree.Basic
import DecisionModel.Value.Display

/-!
# How trees are drawn

The first line names the tree.  Below it each branch has a line of its own, with
connectors that lead to it from the branches above, and the branches behind it follow
with one more column in front.  Codes are shown by the names that the schema gives them.
-/

namespace DecisionModel

/-- The longest text of a list of values in a label, in bytes. -/
def labelWidth : Nat := 60

def braced (labels : List String) : String :=
  "\x7b" ++ ", ".intercalate labels ++ "\x7d"

/-- An element of an array, by name if it is a code. -/
def Attribute.scalarLabel (a : Attribute) : Scalar → String
  | .integer code => a.codeLabel code
  | s => s.display

/-- The value of a test on the attribute. -/
def Attribute.testLabel (a : Attribute) (test : Test) : String :=
  match test.condition, test.value with
  | .within, .mask m => braced (m.codes.map a.codeLabel)
  | .within, .array items =>
    if a.isEnumerated then
      let full := braced (items.items.map a.scalarLabel)
      if full.utf8ByteSize ≤ labelWidth then full else test.value.displayWithin labelWidth
    else test.value.displayWithin labelWidth
  | _, .integer code =>
    if a.isEnumerated then a.codeLabel code else test.value.displayWithin labelWidth
  | _, value => value.displayWithin labelWidth

namespace Schema

def branchLabel (s : Schema) {α : Type} (b : Branch α) : String :=
  match s.attributeById? b.attr, b.test with
  | none, none => "? ?"
  | some a, none => s!"{a.name} ?"
  | none, some t => s!"? {t.condition.symbol} {t.value.displayWithin labelWidth}"
  | some a, some t => s!"{a.name} {t.condition.symbol} {a.testLabel t}"

def decisionLabel (s : Schema) : Value → String
  | .integer code => (s.decisionName? code).getD (toString code)
  | v => v.display

end Schema

/-! ### The drawing -/

/-- The end of a branch's line: the decision behind it, or nothing. -/
def Schema.outcome (s : Schema) : Node → String
  | .terminal v => s!" => {s.decisionLabel v}"
  | .test _ => ""

def connector (isLast : Bool) : String := if isLast then "└── " else "├── "

/-- What stands in that column beside the lines behind the branch. -/
def column (isLast : Bool) : String := if isLast then "    " else "│   "

mutual

def Node.lines (s : Schema) (columns : String) : Node → List String
  | .terminal _ => []
  | .test branches => branchLines s columns branches
termination_by structural n => n

def branchLines (s : Schema) (columns : String) : List (Branch Node) → List String
  | [] => []
  | ⟨attr, slot, test, child⟩ :: rest =>
    let label := s.branchLabel (⟨attr, slot, test, ()⟩ : Branch Unit)
    (columns ++ connector rest.isEmpty ++ label ++ s.outcome child) ::
      child.lines s (columns ++ column rest.isEmpty) ++ branchLines s columns rest
termination_by structural branches => branches

end

def DecisionTree.lines (t : DecisionTree) (s : Schema) : List String :=
  match t.top with
  | none => [t.name ++ " (empty)"]
  | some top => (t.name ++ s.outcome top) :: top.lines s ""

def DecisionTree.display (t : DecisionTree) (s : Schema) : String :=
  String.join ((t.lines s).map (· ++ "\n"))

end DecisionModel
