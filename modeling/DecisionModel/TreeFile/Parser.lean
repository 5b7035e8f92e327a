import DecisionModel.ParseError
import DecisionModel.Tree.Basic
import DecisionModel.TreeFile.Record

/-!
# Reading trees

A tree is a list of its nodes, each before those behind its branches, with a record for
each.  The field `type` says what a record is:

* `0`: a terminal that decides the value `class`;
* `1`: a test for each value of the attribute `att`.  The next line is a placeholder for
  records that lack the attribute, and `forks - 1` nodes follow for the values in the
  order of their codes;
* `2`: a test against thresholds, which the records do not give, so that nothing ever
  reaches the `forks` nodes that follow;
* `3`: a test on sets of values of `att`.  There are `forks` of them, in fields `elts` of
  the record or of the lines after it, and then the nodes for each.

Lines with `id` or `entries="1"` may come first, and blank lines between records.

The text is read line by line.  What has been read is either a complete tree or a stack
of tests, innermost first, each waiting for the nodes of its remaining branches.
-/

namespace DecisionModel.TreeFile

/-! ### The stack -/

/-- A test that some nodes are still missing from. -/
structure Frame where
  /-- The branches that have their node. -/
  done : List (Branch Node)
  /-- The branch whose node comes next. -/
  current : Branch Unit
  pending : List (Branch Unit)
  deriving DecidableEq, Repr

/-- What has been read so far. -/
inductive State where
  /-- Only lines before the first node. -/
  | header
  /-- A node has to come next. -/
  | node (stack : List Frame)
  /-- The placeholder of a test on `attr` has to come next. -/
  | placeholder (attr : Attribute) (forks : Nat) (forksSpan : Span) (stack : List Frame)
  /-- A test on `attr` still lacks some of its sets. -/
  | subsets (attr : Attribute) (missing : Nat) (sets : List (List Int)) (stack : List Frame)
  | complete (top : Node)
  deriving DecidableEq, Repr

def withChild (b : Branch Unit) (child : Node) : Branch Node := ⟨b.attr, b.slot, b.test, child⟩

/-- The state behind a node: it completes the branch that waits for it, and maybe tests. -/
def State.plug : Node → List Frame → State
  | child, [] => .complete child
  | child, f :: stack =>
    let done := f.done ++ [withChild f.current child]
    match f.pending with
    | [] => plug (.test done) stack
    | next :: rest => .node (⟨done, next, rest⟩ :: stack)

/-- The state behind the record of a test with the given branches. -/
def State.descend (branches : List (Branch Unit)) (stack : List Frame) : State :=
  match branches with
  | [] => plug (.test []) stack
  | next :: rest => .node (⟨[], next, rest⟩ :: stack)

/-! ### Fields of node records -/

inductive NodeType where
  | leaf
  | values
  | threshold
  | subsets
  deriving DecidableEq, Repr

def Record.nodeType (r : Record) : Except (Located Fault) NodeType := do
  let (type, span) ← r.value "type"
  match type with
  | "0" => .ok .leaf
  | "1" => .ok .values
  | "2" => .ok .threshold
  | "3" => .ok .subsets
  | _ => .error ⟨.unknownNodeType type, span, none⟩

/-- A number without a sign other than plus. -/
def natural? (text : String) : Option Nat :=
  let digits := match text.toList with
    | '+' :: rest => rest
    | cs => cs
  if digits.isEmpty || !digits.all Char.isDigit then none
  else some (digits.foldl (fun n c => 10 * n + (c.toNat - '0'.toNat)) 0)

def Record.forks (r : Record) : Except (Located Fault) Nat := do
  let (text, span) ← r.value "forks"
  match natural? text with
  | some n =>
    if 1 ≤ n ∧ n ≤ maxForks then .ok n else .error ⟨.invalidForks text, span, none⟩
  | none => .error ⟨.invalidForks text, span, none⟩

def Record.terminal (r : Record) (schema : Schema) : Except (Located Fault) Node := do
  let (value, span) ← r.value "class"
  match schema.decisionCode? value with
  | some code => .ok (.terminal (.integer code))
  | none => .error ⟨.unknownDecision value schema.decisionAttribute.name, span, none⟩

def Record.tested (r : Record) (schema : Schema) : Except (Located Fault) Attribute := do
  let (name, span) ← r.value "att"
  match schema.attribute? name with
  | some a => .ok a
  | none => .error ⟨.unknownAttribute name, span, none⟩

def Field.codes (f : Field) (a : Attribute) : Except (Located Fault) (List Int) :=
  f.values.mapM fun (value, span) =>
    match a.codeOf? value with
    | some code => .ok code
    | none => .error ⟨.unknownValue value a.name, span, none⟩

/-! ### Branches -/

/-- A test for a set of codes: equality for a single one, else membership, in a mask if
    the codes have bits and are not too many. -/
def subsetTest (codes : List Int) : Test :=
  match codes with
  | [code] => ⟨.eq, .integer code⟩
  | _ =>
    let array : Test := ⟨.within, .array (.ofIntegers codes)⟩
    if codes.length ≤ Bitmask.width then
      match Bitmask.ofCodes codes with
      | .ok mask => ⟨.within, .mask mask⟩
      | .error _ => array
    else array

/-- A branch for each of the first `count` values, by code. -/
def valueBranches (a : Attribute) (count : Nat) : List (Branch Unit) :=
  (a.sortedValues.take count).map fun (_, code) => a.branch (some ⟨.eq, .integer code⟩) ()

def thresholdBranches (a : Attribute) (count : Nat) : List (Branch Unit) :=
  List.replicate count (a.branch none ())

def subsetBranches (a : Attribute) (sets : List (List Int)) : List (Branch Unit) :=
  sets.map fun codes => a.branch (some (subsetTest codes)) ()

/-! ### Lines -/

namespace State

def openSubsets (r : Record) (a : Attribute) (forks : Nat) (stack : List Frame) :
    Except (Located Fault) State := do
  match r.fieldsNamed "elts" with
  | [] => .ok (.subsets a forks [] stack)
  | extra :: more =>
    if (extra :: more).length = forks then
      let sets ← (extra :: more).mapM (·.codes a)
      .ok (descend (subsetBranches a sets) stack)
    else .error ⟨.subsetCount (extra :: more).length forks, extra.span, none⟩

def nodeRecord (schema : Schema) (r : Record) (stack : List Frame) :
    Except (Located Fault) State := do
  match ← r.nodeType with
  | .leaf => .ok (plug (← r.terminal schema) stack)
  | type =>
    let a ← r.tested schema
    let forks ← r.forks
    match type with
    | .values => .ok (.placeholder a forks (← r.required "forks").span stack)
    | .threshold => .ok (descend (thresholdBranches a forks) stack)
    | _ => openSubsets r a forks stack

def isHeader (r : Record) : Except (Located Fault) Bool := do
  if (r.field? "type").isSome then .ok false
  else
    match r.field? "entries" with
    | some entries =>
      let (count, span) ← entries.single
      if count = "1" then .ok true else .error ⟨.boosted count, span, none⟩
    | none => .ok (r.field? "id").isSome

def afterPlaceholder (a : Attribute) (forks : Nat) (forksSpan : Span) (stack : List Frame) :
    Except (Located Fault) State :=
  if a.valueCount < forks - 1 then
    .error ⟨.tooManyForks a.name a.valueCount (forks - 1), forksSpan, none⟩
  else .ok (descend (valueBranches a (forks - 1)) stack)

/-- A placeholder is blank or has the record of a terminal, whose class is ignored. -/
def checkPlaceholder (l : Line) : Except (Located Fault) Unit := do
  if l.isBlank then .ok ()
  else
    let r ← Record.parse l
    if (← r.nodeType) = .leaf then .ok () else .error ⟨.placeholderTest, r.span, none⟩

def subsetRecord (r : Record) (a : Attribute) (missing : Nat) (sets : List (List Int))
    (stack : List Frame) : Except (Located Fault) State := do
  let codes ← (← r.required "elts").codes a
  let sets := sets ++ [codes]
  if missing ≤ 1 then .ok (descend (subsetBranches a sets) stack)
  else .ok (.subsets a (missing - 1) sets stack)

def record (schema : Schema) (s : State) (r : Record) : Except (Located Fault) State := do
  match s with
  | .header => if ← isHeader r then .ok .header else nodeRecord schema r []
  | .node stack => nodeRecord schema r stack
  | .subsets a missing sets stack => subsetRecord r a missing sets stack
  | .complete _ => .error ⟨.trailingRecord, r.span, none⟩
  | .placeholder .. => .ok s

def step (schema : Schema) (s : State) (l : Line) : Except (Located Fault) State := do
  match s with
  | .placeholder a forks forksSpan stack =>
    checkPlaceholder l
    afterPlaceholder a forks forksSpan stack
  | _ => if l.isBlank then .ok s else s.record schema (← Record.parse l)

def finish (s : State) (stop : Span) : Except (Located Fault) Node :=
  match s with
  | .complete top => .ok top
  | .header | .node _ => .error ⟨.unexpectedEnd .node, stop, none⟩
  | .placeholder .. => .error ⟨.unexpectedEnd .placeholder, stop, none⟩
  | .subsets .. => .error ⟨.unexpectedEnd .subset, stop, none⟩

end State

/-- Reads the tree of a file over a schema, whose slots it takes over. -/
def parse (schema : Schema) (file : SourceFile) : Except ParseError DecisionTree :=
  let result := do
    let state ← (Line.ofText file.content.toList).foldlM (State.step schema) .header
    let top ← state.finish file.endSpan
    .ok (DecisionTree.withTop schema top)
  result.mapError (.ofLocated .tree file)

end DecisionModel.TreeFile
