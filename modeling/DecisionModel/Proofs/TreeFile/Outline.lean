import DecisionModel.Proofs.Source.Line
import DecisionModel.Proofs.TreeFile.Written
import DecisionModel.TreeFile.Parser

/-!
# Outlines of trees

An outline says by names what tree text says: decisions, tested attributes and sets of
values.  It stands for a node over each schema it fits, and can be written in many ways: with
lines in front and behind, blank lines between records, any placeholders, and sets on the
record of their test or on lines of their own.
-/

namespace DecisionModel.TreeFile

inductive Outline where
  | leaf (decision : String)
  /-- A test with a child for each of the first values, by code. -/
  | values (attr : String) (children : List Outline)
  | threshold (attr : String) (children : List Outline)
  /-- A test with a child for each of the sets of values. -/
  | subsets (attr : String) (sets : List (List String)) (children : List Outline)

namespace Outline

/-- An outline whose names the schema knows, within the limits of tree text. -/
inductive Fits (s : Schema) : Outline → Prop
  | leaf {decision : String} {code : Int} : s.decisionCode? decision = some code →
      Fits s (.leaf decision)
  | values {attr : String} {a : Attribute} {children : List Outline} :
      s.attribute? attr = some a → children.length ≤ 99 → children.length ≤ a.valueCount →
      (∀ child ∈ children, Fits s child) → Fits s (.values attr children)
  | threshold {attr : String} {a : Attribute} {children : List Outline} :
      s.attribute? attr = some a → 1 ≤ children.length → children.length ≤ 100 →
      (∀ child ∈ children, Fits s child) → Fits s (.threshold attr children)
  | subsets {attr : String} {a : Attribute} {sets : List (List String)}
      {children : List Outline} :
      s.attribute? attr = some a → sets.length = children.length → 1 ≤ children.length →
      children.length ≤ 100 → (∀ values ∈ sets, values ≠ []) →
      (∀ values ∈ sets, ∀ value ∈ values, ∃ code, a.codeOf? value = some code) →
      (∀ child ∈ children, Fits s child) → Fits s (.subsets attr sets children)

/-! ### Nodes -/

mutual

/-- The node that the outline stands for. -/
def elaborate? (s : Schema) : Outline → Option Node
  | .leaf decision => do
    let code ← s.decisionCode? decision
    some (.terminal (.integer code))
  | .values attr children => do
    let a ← s.attribute? attr
    let nodes ← elaborateAll? s children
    let branch (value : String × Int) (child : Node) : Branch Node :=
      ⟨a.id, a.slot, some ⟨.eq, .integer value.2⟩, child⟩
    some (.test (List.zipWith branch a.sortedValues nodes))
  | .threshold attr children => do
    let a ← s.attribute? attr
    let nodes ← elaborateAll? s children
    some (.test (nodes.map fun child => ⟨a.id, a.slot, none, child⟩))
  | .subsets attr sets children => do
    let a ← s.attribute? attr
    let codes ← sets.mapM fun values => values.mapM a.codeOf?
    let nodes ← elaborateAll? s children
    let branch (set : List Int) (child : Node) : Branch Node :=
      ⟨a.id, a.slot, some (subsetTest set), child⟩
    some (.test (List.zipWith branch codes nodes))
termination_by structural o => o

def elaborateAll? (s : Schema) : List Outline → Option (List Node)
  | [] => some []
  | child :: rest => do
    let node ← child.elaborate? s
    let nodes ← elaborateAll? s rest
    some (node :: nodes)
termination_by structural os => os

end

end Outline

/-! ### Ways to write -/

/-- Whether a text fits on a line. -/
def OnOneLine (text : String) : Prop := '\n' ∉ text.toList

instance (text : String) : Decidable (OnOneLine text) :=
  inferInstanceAs (Decidable ('\n' ∉ text.toList))

abbrev OneLine := { text : String // OnOneLine text }

/-- White space on one line. -/
abbrev BlankLine := { text : List Char // ∀ c ∈ text, Text.isBlank c = true ∧ c ≠ '\n' }

def BlankLine.empty : BlankLine := ⟨[], by simp⟩

inductive HeaderLine where
  | id (value : OneLine)
  | entries
  | blank (line : BlankLine)

inductive Placeholder where
  | blank (line : BlankLine)
  | leaf (decision : OneLine)

/-- How a node is written. -/
structure Style where
  before : List BlankLine
  placeholder : Placeholder
  inlineSets : Bool
  /-- The lines before each set that has a line of its own. -/
  beforeSet : Nat → List BlankLine

/-- How a tree is written.  A node is given by the positions of the children on its path. -/
structure Layout where
  header : List HeaderLine
  style : List Nat → Style
  trailer : List BlankLine
  lineEnd : LineEnd
  closed : Bool

/-! ### Text -/

def HeaderLine.text : HeaderLine → List Char
  | .id value => recordText [("id", [value])]
  | .entries => recordText [("entries", ["1"])]
  | .blank line => line

def leafFields (decision : String) : List Content := [("type", ["0"]), ("class", [decision])]

def testFields (type attr : String) (forks : Nat) : List Content :=
  [("type", [type]), ("att", [attr]), ("forks", [toString forks])]

def setField (values : List String) : Content := ("elts", values)

def Placeholder.text : Placeholder → List Char
  | .blank line => line
  | .leaf decision => recordText (leafFields decision)

/-- The lines of sets, the first of which has position `i`. -/
def setLines (before : Nat → List BlankLine) (i : Nat) : List (List String) → List (List Char)
  | [] => []
  | values :: rest =>
    (before i).map Subtype.val ++ recordText [setField values] :: setLines before (i + 1) rest

/-- The lines of a test on sets, up to the nodes. -/
def subsetLines (style : Style) (attr : String) (sets : List (List String)) : List (List Char) :=
  let test := testFields "3" attr sets.length
  if style.inlineSets then [recordText (test ++ sets.map setField)]
  else recordText test :: setLines style.beforeSet 0 sets

namespace Outline

mutual

/-- The lines of an outline, each node in the style for its path. -/
def lines (style : List Nat → Style) : Outline → List (List Char)
  | .leaf decision =>
    (style []).before.map Subtype.val ++ [recordText (leafFields decision)]
  | .values attr children =>
    (style []).before.map Subtype.val ++
      [recordText (testFields "1" attr (children.length + 1)), (style []).placeholder.text] ++
      childLines style 0 children
  | .threshold attr children =>
    (style []).before.map Subtype.val ++ [recordText (testFields "2" attr children.length)] ++
      childLines style 0 children
  | .subsets attr sets children =>
    (style []).before.map Subtype.val ++ subsetLines (style []) attr sets ++
      childLines style 0 children
termination_by structural o => o

/-- The lines of children, the first of which has position `i`. -/
def childLines (style : List Nat → Style) (i : Nat) : List Outline → List (List Char)
  | [] => []
  | child :: rest =>
    child.lines (fun path => style (i :: path)) ++ childLines style (i + 1) rest
termination_by structural os => os

end

/-- The text of an outline in a layout. -/
def render (o : Outline) (layout : Layout) : String :=
  String.ofList <| Line.linesText layout.lineEnd layout.closed <|
    layout.header.map HeaderLine.text ++ o.lines layout.style ++
      layout.trailer.map Subtype.val

end Outline

end DecisionModel.TreeFile
