import DecisionModel.TreeFile.Token

/-!
# What can be wrong with tree text
-/

namespace DecisionModel.TreeFile

def maxForks : Nat := 100

inductive Expected where
  | node
  | placeholder
  | subset
  deriving DecidableEq, Repr

def Expected.describe : Expected → String
  | .node => "a node record"
  | .placeholder => "a placeholder line"
  | .subset => "an `elts` record"

inductive Fault where
  | unexpected (expected : TokenKind) (found : String)
  | unexpectedLineEnd (expected : TokenKind)
  | unexpectedEnd (expected : Expected)
  | trailingRecord
  | boosted (entries : String)
  | missingField (field : String)
  | severalValues (field : String)
  | unknownNodeType (type : String)
  | invalidForks (forks : String)
  | tooManyForks (attr : String) (values branches : Nat)
  | placeholderTest
  | subsetCount (subsets forks : Nat)
  | unknownDecision (value decision : String)
  | unknownAttribute (attr : String)
  | unknownValue (value attr : String)
  deriving DecidableEq, Repr

namespace Fault

/-- Whether the text is well-formed, but names what the schema does not have. -/
def isUnresolved : Fault → Bool
  | .unknownDecision .. | .unknownAttribute _ | .unknownValue .. => true
  | _ => false

def message : Fault → String
  | .unexpected expected found => s!"expected {expected.describe}, found `{found}`"
  | .unexpectedLineEnd expected => s!"expected {expected.describe} before the end of the line"
  | .unexpectedEnd expected => s!"unexpected end of file, expected {expected.describe}"
  | .trailingRecord => "unexpected record after the end of the tree"
  | .boosted entries => s!"boosted trees are not supported (entries=\"{entries}\")"
  | .missingField field => s!"record has no `{field}` field"
  | .severalValues field => s!"`{field}` takes a single value"
  | .unknownNodeType type => s!"unknown node type `{type}`"
  | .invalidForks forks => s!"invalid fork count `{forks}`"
  | .tooManyForks attr values branches =>
    s!"`{attr}` has {values} values but the node has {branches} value branches"
  | .placeholderTest => "expected a blank or leaf placeholder line"
  | .subsetCount subsets forks => s!"node has {subsets} `elts` fields but {forks} forks"
  | .unknownDecision value _ => s!"unknown decision value `{value}`"
  | .unknownAttribute attr => s!"unknown attribute `{attr}`"
  | .unknownValue value attr => s!"`{value}` is not a value of `{attr}`"

def label : Fault → String
  | .unexpected expected _ => s!"expected {expected.describe}"
  | .unexpectedLineEnd expected => s!"expected {expected.describe}"
  | .unexpectedEnd expected => s!"expected {expected.describe}"
  | .trailingRecord => "the tree is already complete"
  | .boosted _ => "expected a single tree"
  | .missingField field => s!"expected a `{field}=\"...\"` field"
  | .severalValues _ => "expected one quoted value"
  | .unknownNodeType _ => "expected 0, 1, 2 or 3"
  | .invalidForks _ => s!"expected a number between 1 and {maxForks}"
  | .tooManyForks .. => "too many forks"
  | .placeholderTest => "the first fork of a value test must be a leaf"
  | .subsetCount .. => "expected one subset per fork"
  | .unknownDecision _ decision => s!"not a value of `{decision}`"
  | .unknownAttribute _ => "not defined in the schema"
  | .unknownValue .. => "unknown value"

end Fault

end DecisionModel.TreeFile
