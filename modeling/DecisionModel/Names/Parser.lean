import DecisionModel.Names.Token
import DecisionModel.ParseError

/-!
# Reading schemas

    state.                          | the decision attribute
    level: continuous.
    count: low, mid, high.

A statement `name.` declares the decision attribute; of several the last counts.  A
statement `name: v1, v2, … .` defines an enumerated attribute whose values get codes in
the order they are listed, and `name: continuous.` a continuous one.

A declaration may also name a group, with the decision attribute defined right behind
its dot, as in `decision.state: stop, pause, play.`  If no attribute has the name of the
group, the attribute defined there is the decision.
-/

namespace DecisionModel.Names

structure Mention where
  name : String
  span : Span
  deriving DecidableEq, Repr

def Mention.ofToken (t : Token TokenKind) : Mention := ⟨t.text, t.span⟩

/-- A statement `name.` -/
structure Declaration where
  target : Mention
  /-- The place behind its dot. -/
  stop : Nat
  /-- The attribute defined right there. -/
  follower : Option Mention
  deriving DecidableEq, Repr

/-- The declaration with the attribute as its follower, if it is defined right behind. -/
def Declaration.follow (d : Declaration) (name : Mention) : Declaration :=
  if d.stop = name.span.start then { d with follower := some name } else d

inductive Phase where
  | start
  | named (name : Mention)
  /-- The definition of an attribute, before one of its values. -/
  | value (name : Mention) (values : List String)
  /-- The definition of an attribute, behind one of its values. -/
  | separator (name : Mention) (values : List String)
  deriving DecidableEq, Repr

structure State where
  builder : SchemaBuilder
  /-- The attributes defined, in order. -/
  definitions : List Mention
  declaration : Option Declaration
  phase : Phase
  deriving DecidableEq, Repr

namespace State

def initial : State := ⟨.empty, [], none, .start⟩

def expected (s : State) : Expected :=
  match s.phase with
  | .start => .attributeName
  | .named _ => .dotOrColon
  | .value .. => .valueName
  | .separator .. => .commaOrDot

/-- The only value of a continuous attribute. -/
def continuous : String := "continuous"

def defineAttribute (b : SchemaBuilder) (name : String) (values : List String) : SchemaBuilder :=
  let (id, b) := b.define name
  if values = [continuous] then b
  else values.foldl (fun b value => (b.pushValue id value).2) b

/-- The end of the statement `name.` -/
def declare (s : State) (name : Mention) (stop : Nat) : State :=
  { s with declaration := some ⟨name, stop, none⟩, phase := .start }

/-- The end of the statement `name: values.` -/
def complete (s : State) (name : Mention) (values : List String) : State where
  builder := defineAttribute s.builder name.name values
  definitions := s.definitions ++ [name]
  declaration := s.declaration.map (·.follow name)
  phase := .start

def step (s : State) (t : Token TokenKind) : Except (Located Fault) State :=
  match s.phase, t.kind with
  | .start, .name => .ok { s with phase := .named (.ofToken t) }
  | .named name, .dot => .ok (s.declare name t.span.stop)
  | .named name, .colon =>
    if s.builder.contains name.name then .error ⟨.redefined name.name, name.span, none⟩
    else .ok { s with phase := .value name [] }
  | .value name values, .name => .ok { s with phase := .separator name (values ++ [t.text]) }
  | .separator name values, .comma => .ok { s with phase := .value name values }
  | .separator name values, .dot => .ok (s.complete name values)
  | _, _ => .error ⟨.unexpected s.expected t.text, t.span, none⟩

/-- The place that a declaration means: the attribute it names, or else the one defined
    right behind it. -/
def resolve (s : State) (d : Declaration) : Mention :=
  match d.follower with
  | some follower => if s.builder.contains d.target.name then d.target else follower
  | none => d.target

def finish (s : State) (stop : Span) : Except (Located Fault) Schema :=
  match s.phase, s.declaration with
  | .start, none => .error ⟨.noDecision, stop, none⟩
  | .start, some d =>
    let target := s.resolve d
    match s.builder.finish target.name with
    | .ok schema => .ok schema
    | .error reason =>
      let definition := s.definitions.find? fun m =>
        m.name == target.name && m.span != target.span
      .error ⟨.unusableDecision reason, target.span, definition.map (·.span)⟩
  | _, _ => .error ⟨.unexpectedEnd s.expected, stop, none⟩

end State

def parse (file : SourceFile) : Except ParseError Schema :=
  let result := do
    let state ← (tokens file.content.toList).foldlM State.step State.initial
    state.finish file.endSpan
  result.mapError (.ofLocated .names file)

end DecisionModel.Names
