import DecisionModel.Source.Line
import DecisionModel.Source.Located
import DecisionModel.TreeFile.Fault
import DecisionModel.TreeFile.Quoting

/-!
# Records of tree text

A record is a line of fields `name="value"`.  A field may have several values, separated
by commas, and a record several fields of one name.
-/

namespace DecisionModel.TreeFile

structure Field where
  name : String
  /-- From the name to the last value. -/
  span : Span
  values : List (String × Span)
  deriving DecidableEq, Repr

structure Record where
  /-- The whole line. -/
  span : Span
  fields : List Field
  deriving DecidableEq, Repr

/-! ### Reading -/

/-- What has been read of the field that is not complete yet. -/
inductive FieldPhase where
  | start
  | named (name : String) (span : Span)
  /-- Behind an equals sign. -/
  | first (name : String) (span : Span)
  /-- Behind a value. -/
  | valued (field : Field)
  /-- Behind a comma. -/
  | next (field : Field)
  deriving DecidableEq, Repr

/-- The fields that are complete, in order, and the phase of the one that is not. -/
structure FieldState where
  fields : List Field
  phase : FieldPhase
  deriving DecidableEq, Repr

namespace FieldState

def initial : FieldState := ⟨[], .start⟩

def expected (s : FieldState) : TokenKind :=
  match s.phase with
  | .start | .valued _ => .name
  | .named .. => .equals
  | .first .. | .next _ => .text

def addValue (f : Field) (t : Token TokenKind) : Field :=
  { f with span := f.span.cover t.span, values := f.values ++ [(unquote t.text, t.span)] }

def step (s : FieldState) (t : Token TokenKind) : Except (Located Fault) FieldState :=
  match s.phase, t.kind with
  | .start, .name => .ok { s with phase := .named t.text t.span }
  | .named name span, .equals => .ok { s with phase := .first name span }
  | .first name span, .text => .ok { s with phase := .valued (addValue ⟨name, span, []⟩ t) }
  | .valued f, .comma => .ok { s with phase := .next f }
  | .valued f, .name => .ok ⟨s.fields ++ [f], .named t.text t.span⟩
  | .next f, .text => .ok { s with phase := .valued (addValue f t) }
  | _, _ => .error ⟨.unexpected s.expected t.text, t.span, none⟩

def finish (s : FieldState) (stop : Nat) : Except (Located Fault) (List Field) :=
  match s.phase with
  | .start => .ok s.fields
  | .valued f => .ok (s.fields ++ [f])
  | _ => .error ⟨.unexpectedLineEnd s.expected, .point stop, none⟩

end FieldState

namespace Record

def parse (l : Line) : Except (Located Fault) Record := do
  let state ← (tokens l.offset l.text).foldlM FieldState.step FieldState.initial
  let fields ← state.finish l.span.stop
  .ok ⟨l.span, fields⟩

/-! ### Fields of a record -/

def field? (r : Record) (name : String) : Option Field := r.fields.find? (·.name == name)

def fieldsNamed (r : Record) (name : String) : List Field := r.fields.filter (·.name == name)

def required (r : Record) (name : String) : Except (Located Fault) Field :=
  match r.field? name with
  | some f => .ok f
  | none => .error ⟨.missingField name, r.span, none⟩

end Record

def Field.single (f : Field) : Except (Located Fault) (String × Span) :=
  match f.values with
  | [value] => .ok value
  | _ => .error ⟨.severalValues f.name, f.span, none⟩

/-- The value of a field that the record has to have, with one value. -/
def Record.value (r : Record) (name : String) : Except (Located Fault) (String × Span) := do
  (← r.required name).single

end DecisionModel.TreeFile
