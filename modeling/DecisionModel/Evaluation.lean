import DecisionModel.Tree.Basic

/-!
# Evaluation

A record gives the values of attributes by slot; any may be missing.  Evaluation walks
from the top of a tree to a terminal.  At each test it takes the first branch whose test
the record's value passes; branches without a test, and those whose value the record
lacks, are passed over, and a tested branch without a slot stops the walk.
-/

namespace DecisionModel

/-! ### Records -/

/-- A record says what value it has at a slot, if any. -/
abbrev Record := Slot → Option Value

namespace Record

def dense (values : List Value) : Record
  | .index n => values[n]?
  | .unbound => none

def sparse (values : List (Option Value)) : Record
  | .index n => (values[n]?).join
  | .unbound => none

/-- The record that holds the listed values at the slots beside them.  Of several values
    at one slot the last counts. -/
def ofPairs (pairs : List (Slot × Value)) : Record := fun slot => pairs.reverse.lookup slot

end Record

/-! ### Tests -/

inductive StringEquality where
  /-- Equal texts match. -/
  | strict
  /-- Different texts match, as some hand-written trees expect. -/
  | legacy
  deriving DecidableEq, Repr

structure EvalOptions where
  stringEquality : StringEquality := .strict
  deriving DecidableEq, Repr

/-- How two numbers of one type stand to each other. -/
def Value.compare? : Value → Value → Option Ordering
  | .integer a, .integer b => some (compare a b)
  | .unsigned a, .unsigned b => some (compare a b)
  | .floating a, .floating b => a.compare? b
  | _, _ => none

/-- Whether a number that stands so to the expected one meets the condition. -/
def Condition.holds : Condition → Ordering → Bool
  | .gt, o => o == .gt
  | .ge, o => o != .lt
  | .eq, o => o == .eq
  | .le, o => o != .gt
  | .lt, o => o == .lt
  | .within, _ => false

def StringEquality.holds : StringEquality → String → String → Bool
  | .strict, a, b => a == b
  | .legacy, a, b => a != b

def Bitmask.holds (m : Bitmask) : Value → Bool
  | .integer n => m.contains n
  | .unsigned n => m.contains n
  | _ => false

/-- Whether the input passes the test.  Values of different types never match. -/
def Test.passes (t : Test) (options : EvalOptions) (input : Value) : Bool :=
  match t.condition, t.value with
  | .within, .array a => a.contains input
  | .within, .mask m => m.holds input
  | .within, _ => false
  | .eq, .text expected =>
    match input with
    | .text actual => options.stringEquality.holds actual expected
    | _ => false
  | condition, expected =>
    match input.compare? expected with
    | some o => condition.holds o
    | none => false

/-! ### The walk -/

inductive EvalError where
  /-- At some test no branch matches; what to do then is the caller's decision. -/
  | noMatch
  | unattached
  /-- An attribute is tested that had no slot when the tree was made. -/
  | unboundSlot (attr : AttrId)
  deriving DecidableEq, Repr

def EvalError.message : EvalError → String
  | .noMatch => "no branch matched the record"
  | .unattached => "decision tree has no top node"
  | .unboundSlot attr => s!"attribute {attr.text} is tested but was never bound to a record slot"

inductive Verdict where
  | passOver
  | take
  | fault (attr : AttrId)
  deriving DecidableEq, Repr

/-- What a branch on `attr` at `slot` says of a record. -/
def verdict (options : EvalOptions) (record : Record) (attr : AttrId) (slot : Slot) :
    Option Test → Verdict
  | none => .passOver
  | some test =>
    if slot.isBound then
      match record slot with
      | none => .passOver
      | some input => if test.passes options input then .take else .passOver
    else .fault attr

mutual

def Node.decide (options : EvalOptions) (record : Record) : Node → Except EvalError Value
  | .terminal v => .ok v
  | .test branches => decideBranches options record branches
termination_by structural n => n

/-- The decision behind the first branch that is taken. -/
def decideBranches (options : EvalOptions) (record : Record) :
    List (Branch Node) → Except EvalError Value
  | [] => .error .noMatch
  | ⟨attr, slot, test, child⟩ :: rest =>
    match verdict options record attr slot test with
    | .fault attr => .error (.unboundSlot attr)
    | .take => child.decide options record
    | .passOver => decideBranches options record rest
termination_by structural branches => branches

end

structure Decision where
  value : Value
  type : ValueType
  deriving DecidableEq, Repr

def Decision.code? (d : Decision) : Option Int := d.value.asInteger?

def DecisionTree.evaluate (t : DecisionTree) (options : EvalOptions) (record : Record) :
    Except EvalError Decision :=
  match t.top with
  | none => .error .unattached
  | some top => (top.decide options record).map fun v => ⟨v, t.decisionType⟩

end DecisionModel
