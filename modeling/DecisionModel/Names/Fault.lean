import DecisionModel.Schema.Builder

/-!
# What can be wrong with schema text
-/

namespace DecisionModel.Names

inductive Expected where
  | attributeName
  | dotOrColon
  | valueName
  | commaOrDot
  deriving DecidableEq, Repr

def Expected.describe : Expected → String
  | .attributeName => "an attribute name"
  | .dotOrColon => "`.` or `:`"
  | .valueName => "a value name"
  | .commaOrDot => "`,` or `.`"

inductive Fault where
  | unexpected (expected : Expected) (found : String)
  | unexpectedEnd (expected : Expected)
  | redefined (attr : String)
  | noDecision
  | unusableDecision (reason : SchemaError)
  deriving DecidableEq, Repr

namespace Fault

def message : Fault → String
  | .unexpected expected found => s!"expected {expected.describe}, found `{found}`"
  | .unexpectedEnd expected => s!"unexpected end of file, expected {expected.describe}"
  | .redefined attr => s!"attribute `{attr}` is defined more than once"
  | .noDecision => "no decision attribute is declared"
  | .unusableDecision reason => reason.message

def label : Fault → String
  | .unexpected expected _ => s!"expected {expected.describe}"
  | .unexpectedEnd expected => s!"expected {expected.describe}"
  | .redefined _ => "redefined here"
  | .noDecision => "expected a `<name>.` statement"
  | .unusableDecision _ => "declared as the decision attribute here"

end Fault

end DecisionModel.Names
