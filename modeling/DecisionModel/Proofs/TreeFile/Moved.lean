import DecisionModel.Proofs.Source.Moved
import DecisionModel.Proofs.Source.Place
import DecisionModel.Proofs.TreeFile.Place

/-!
# Moved tree text

Reading a tree never compares places but to join the spans of a field.  Lines that are moved, each
as a whole and all in the same order, are read alike: a record has its fields at their new
places, and of a state only the place of a fork count moves.
-/

namespace DecisionModel.TreeFile

open Text

/-! ### Tokens -/

def Open.move (f : Nat → Nat) : Open → Open
  | .nothing => .nothing
  | .name start reversed => .name (f start) reversed
  | .text start reversed => .text (f start) reversed
  | .escape start reversed => .escape (f start) reversed

section

variable (k : Nat)

theorem closed_shift (kind : TokenKind) (start : Nat) (reversed : List Char) :
    closed kind (start + k) reversed = (closed kind start reversed).move (· + k) := by
  simp only [closed, Token.ofChars, Token.move, Span.move, Nat.add_right_comm]

theorem brokenText_shift (start : Nat) (reversed : List Char) :
    brokenText (start + k) reversed = (brokenText start reversed).map (Token.move (· + k)) := by
  simp only [brokenText, closed, Token.ofChars, Token.move, Span.move, Nat.add_right_comm,
    List.map_cons, List.map_nil]

theorem begin_shift (place : Nat) (c : Char) :
    begin (place + k) c =
      ((begin place c).1.map (Token.move (· + k)), (begin place c).2.move (· + k)) := by
  unfold begin
  split
  · rfl
  · split
    · rfl
    · split
      · rfl
      · simp only [Token.ofChars, Token.move, Span.move, Open.move, Nat.add_right_comm,
          List.map_cons, List.map_nil]

theorem step_shift (place : Nat) (c : Char) (state : Open) :
    step (place + k) c (state.move (· + k)) =
      ((step place c state).1.map (Token.move (· + k)), (step place c state).2.move (· + k)) := by
  cases state with
  | nothing => exact begin_shift k place c
  | name start reversed =>
    simp only [step, Open.move, begin_shift, closed_shift]
    split
    · rfl
    · rfl
  | text start reversed =>
    simp only [step, Open.move, closed_shift]
    split
    · rfl
    · split
      · rfl
      · rfl
  | escape start reversed =>
    simp only [step, Open.move, begin_shift, brokenText_shift]
    split
    · rw [List.map_append]
    · rfl

theorem close_shift (state : Open) :
    close (state.move (· + k)) = (close state).map (Token.move (· + k)) := by
  cases state with
  | nothing => rfl
  | name start reversed => exact congrArg (fun t => [t]) (closed_shift k .name start reversed)
  | text start reversed => exact congrArg (fun t => [t]) (closed_shift k .error start reversed)
  | escape start reversed => exact brokenText_shift k start reversed

theorem tokensFrom_shift (state : Open) (place : Nat) (text : List Char) :
    tokensFrom (state.move (· + k)) (place + k) text =
      (tokensFrom state place text).map (Token.move (· + k)) := by
  induction text generalizing state place with
  | nil => exact close_shift k state
  | cons c rest ih =>
    have hplace : place + k + c.utf8Size = place + c.utf8Size + k := Nat.add_right_comm _ _ _
    simp only [tokensFrom, step_shift, hplace, ih, List.map_append]

/-- **The tokens of a record** have the same distance from its start wherever it stands. -/
theorem tokens_shift (offset : Nat) (record : List Char) :
    tokens (offset + k) record = (tokens offset record).map (Token.move (· + k)) :=
  tokensFrom_shift k .nothing offset record

end

/-! ### Lines -/

/-- All places of the line move by the same distance. -/
def MovesBy (f : Nat → Nat) (l : Line) (k : Nat) : Prop :=
  ∀ place, IsBorder l.offset l.text place → f place = place + k

variable {f : Nat → Nat} {l : Line} {k : Nat}

theorem MovesBy.span_move (h : MovesBy f l k) {s : Span} (hs : s.Within l.offset l.text) :
    s.move (· + k) = s.move f := by
  simp only [Span.move, h _ hs.start, h _ hs.stop]

theorem MovesBy.offset (h : MovesBy f l k) : f l.offset = l.offset + k :=
  h l.offset ⟨[], l.text, rfl, rfl⟩

/-- The tokens of a line move with it. -/
theorem MovesBy.tokens_move (h : MovesBy f l k) :
    tokens (f l.offset) l.text = (tokens l.offset l.text).map (Token.move f) := by
  rw [h.offset, tokens_shift]
  apply List.map_congr_left
  intro t ht
  have hspan := h.span_move (standsIn_tokens l.offset l.text t ht).within
  simp only [Token.move, hspan]

theorem MovesBy.line_span_move (h : MovesBy f l k) : (l.move f).span = l.span.move f := by
  have hstop : f (l.offset + byteLength l.text) = l.offset + byteLength l.text + k :=
    h _ ⟨l.text, [], by simp, rfl⟩
  simp only [Line.span, Line.move, Span.move, h.offset, hstop, Nat.add_right_comm]

/-! ### Fields -/

variable (f)

def Field.move (x : Field) : Field :=
  ⟨x.name, x.span.move f, x.values.map fun (value, span) => (value, span.move f)⟩

def Record.move (r : Record) : Record := ⟨r.span.move f, r.fields.map (Field.move f)⟩

def FieldPhase.move : FieldPhase → FieldPhase
  | .start => .start
  | .named name span => .named name (span.move f)
  | .first name span => .first name (span.move f)
  | .valued x => .valued (x.move f)
  | .next x => .next (x.move f)

def FieldState.move (s : FieldState) : FieldState :=
  ⟨s.fields.map (Field.move f), s.phase.move f⟩

variable {f}

theorem FieldState.addValue_move (mono : Monotone f) (x : Field) (t : Token TokenKind) :
    addValue (x.move f) (t.move f) = (addValue x t).move f := by
  simp only [addValue, Field.move, Token.move, Span.cover_move mono, List.map_append,
    List.map_cons, List.map_nil]

theorem FieldState.step_move (mono : Monotone f) (s : FieldState) (t : Token TokenKind) :
    (s.move f).step (t.move f) = moveResult f (move f) (s.step t) := by
  obtain ⟨fields, phase⟩ := s
  obtain ⟨kind, text, span⟩ := t
  cases phase with
  | start => cases kind <;> rfl
  | named name at_ => cases kind <;> rfl
  | first name at_ =>
    cases kind
    case text =>
      exact congrArg (fun x => Except.ok (FieldState.mk _ (.valued x)))
        (addValue_move mono ⟨name, at_, []⟩ ⟨.text, text, span⟩)
    all_goals rfl
  | valued x =>
    cases kind
    case name => simp [step, move, FieldPhase.move, Token.move, moveResult]
    all_goals rfl
  | next x =>
    cases kind
    case text =>
      exact congrArg (fun x => Except.ok (FieldState.mk _ (.valued x)))
        (addValue_move mono x ⟨.text, text, span⟩)
    all_goals rfl

theorem FieldState.finish_move (s : FieldState) (stop : Nat) :
    (s.move f).finish (f stop) = moveResult f (List.map (Field.move f)) (s.finish stop) := by
  obtain ⟨fields, phase⟩ := s
  cases phase with
  | valued x => simp [finish, move, FieldPhase.move, moveResult]
  | _ => rfl

/-- **A record moves with its line.** -/
theorem Record.parse_move (mono : Monotone f) (h : MovesBy f l k) :
    Record.parse (l.move f) = moveResult f (Record.move f) (Record.parse l) := by
  have hrun : ((tokens l.offset l.text).map (Token.move f)).foldlM FieldState.step
      FieldState.initial = moveResult f (FieldState.move f)
        ((tokens l.offset l.text).foldlM FieldState.step FieldState.initial) :=
    foldlM_move (fun s t _ => FieldState.step_move mono s t) FieldState.initial
  unfold Record.parse
  simp only [h.line_span_move]
  simp only [Line.move, h.tokens_move, hrun]
  apply moveResult_bind
  intro s
  show ((s.move f).finish (f l.span.stop) >>= _) = _
  rw [FieldState.finish_move]
  apply moveResult_bind
  intro fields
  rfl

/-! ### Readers of records -/

variable (f)

theorem Field.single_move (x : Field) :
    (x.move f).single = moveResult f (fun (value, span) => (value, span.move f)) x.single := by
  obtain ⟨name, span, values⟩ := x
  rcases values with _ | ⟨value, _ | ⟨second, more⟩⟩
  · rfl
  · rfl
  · rfl

theorem Field.codes_move (x : Field) (a : Attribute) :
    (x.move f).codes a = moveResult f id (x.codes a) := by
  unfold Field.codes
  apply mapM_move
  rintro ⟨value, span⟩
  dsimp only
  rcases a.codeOf? value with _ | code
  · rfl
  · rfl

namespace Record

theorem field?_move (r : Record) (name : String) :
    (r.move f).field? name = (r.field? name).map (Field.move f) :=
  List.find?_map

theorem fieldsNamed_move (r : Record) (name : String) :
    (r.move f).fieldsNamed name = (r.fieldsNamed name).map (Field.move f) :=
  List.filter_map

theorem required_move (r : Record) (name : String) :
    (r.move f).required name = moveResult f (Field.move f) (r.required name) := by
  rw [required, required, field?_move]
  rcases r.field? name with _ | x
  · rfl
  · rfl

theorem value_move (r : Record) (name : String) :
    (r.move f).value name =
      moveResult f (fun (value, span) => (value, span.move f)) (r.value name) := by
  rw [value, value, required_move]
  exact moveResult_bind (Field.single_move f)

theorem nodeType_move (r : Record) : (r.move f).nodeType = moveResult f id r.nodeType := by
  rw [nodeType, nodeType, value_move]
  apply moveResult_bind
  rintro ⟨type, span⟩
  dsimp only
  split
  · rfl
  · rfl
  · rfl
  · rfl
  · rfl

theorem forks_move (r : Record) : (r.move f).forks = moveResult f id r.forks := by
  rw [forks, forks, value_move]
  apply moveResult_bind
  rintro ⟨text, span⟩
  dsimp only
  split
  · split
    · rfl
    · rfl
  · rfl

theorem terminal_move (r : Record) (schema : Schema) :
    (r.move f).terminal schema = moveResult f id (r.terminal schema) := by
  rw [terminal, terminal, value_move]
  apply moveResult_bind
  rintro ⟨value, span⟩
  dsimp only
  split
  · rfl
  · rfl

theorem tested_move (r : Record) (schema : Schema) :
    (r.move f).tested schema = moveResult f id (r.tested schema) := by
  rw [tested, tested, value_move]
  apply moveResult_bind
  rintro ⟨name, span⟩
  dsimp only
  split
  · rfl
  · rfl

end Record

/-! ### States -/

namespace State

def move : State → State
  | .placeholder a forks span stack => .placeholder a forks (span.move f) stack
  | s => s

theorem plug_move (child : Node) (stack : List Frame) :
    (plug child stack).move f = plug child stack := by
  induction stack generalizing child with
  | nil => rfl
  | cons frame stack ih =>
    unfold plug
    split
    · exact ih _
    · rfl

theorem descend_move (branches : List (Branch Unit)) (stack : List Frame) :
    (descend branches stack).move f = descend branches stack := by
  cases branches with
  | nil => exact plug_move f (.test []) stack
  | cons next rest => rfl

theorem openSubsets_move (r : Record) (a : Attribute) (forks : Nat) (stack : List Frame) :
    openSubsets (r.move f) a forks stack = moveResult f (move f) (openSubsets r a forks stack) := by
  unfold openSubsets
  rw [Record.fieldsNamed_move]
  rcases r.fieldsNamed "elts" with _ | ⟨extra, more⟩
  · rfl
  · simp only [List.map_cons, List.length_cons, List.length_map]
    split
    · rw [← List.map_cons, mapM_move fun x => Field.codes_move f x a]
      apply moveResult_bind
      intro sets
      exact congrArg Except.ok (descend_move f _ stack).symm
    · rfl

theorem nodeRecord_move (schema : Schema) (r : Record) (stack : List Frame) :
    nodeRecord schema (r.move f) stack = moveResult f (move f) (nodeRecord schema r stack) := by
  unfold nodeRecord
  rw [Record.nodeType_move]
  apply moveResult_bind
  intro type
  cases type with
  | leaf =>
    simp only [id, Record.terminal_move]
    apply moveResult_bind
    intro n
    exact congrArg Except.ok (plug_move f n stack).symm
  | values =>
    simp only [id, Record.tested_move, Record.forks_move, Record.required_move]
    apply moveResult_bind
    intro a
    apply moveResult_bind
    intro forks
    apply moveResult_bind
    intro x
    rfl
  | threshold =>
    simp only [id, Record.tested_move, Record.forks_move]
    apply moveResult_bind
    intro a
    apply moveResult_bind
    intro forks
    exact congrArg Except.ok (descend_move f _ stack).symm
  | subsets =>
    simp only [id, Record.tested_move, Record.forks_move]
    apply moveResult_bind
    intro a
    apply moveResult_bind
    intro forks
    exact openSubsets_move f r a forks stack

theorem isHeader_move (r : Record) : isHeader (r.move f) = moveResult f id (isHeader r) := by
  unfold isHeader
  simp only [Record.field?_move, Option.isSome_map]
  split
  · rfl
  · rcases r.field? "entries" with _ | entries
    · rfl
    · simp only [Option.map_some, Field.single_move]
      apply moveResult_bind
      rintro ⟨count, span⟩
      dsimp only
      split
      · rfl
      · rfl

theorem subsetRecord_move (r : Record) (a : Attribute) (missing : Nat) (sets : List (List Int))
    (stack : List Frame) :
    subsetRecord (r.move f) a missing sets stack =
      moveResult f (move f) (subsetRecord r a missing sets stack) := by
  unfold subsetRecord
  simp only [Record.required_move]
  apply moveResult_bind
  intro x
  rw [Field.codes_move]
  apply moveResult_bind
  intro codes
  simp only [id]
  split
  · exact congrArg Except.ok (descend_move f _ stack).symm
  · rfl

theorem record_move (schema : Schema) (s : State) (r : Record) :
    (s.move f).record schema (r.move f) = moveResult f (move f) (s.record schema r) := by
  cases s with
  | header =>
    simp only [move, record, isHeader_move]
    apply moveResult_bind
    intro header
    cases header with
    | true => rfl
    | false => exact nodeRecord_move f schema r []
  | node stack => exact nodeRecord_move f schema r stack
  | placeholder a forks span stack => rfl
  | subsets a missing sets stack => exact subsetRecord_move f r a missing sets stack
  | complete top => rfl

theorem afterPlaceholder_move (a : Attribute) (forks : Nat) (span : Span) (stack : List Frame) :
    afterPlaceholder a forks (span.move f) stack =
      moveResult f (move f) (afterPlaceholder a forks span stack) := by
  unfold afterPlaceholder
  split
  · rfl
  · exact congrArg Except.ok (descend_move f _ stack).symm

theorem finish_move (s : State) (stop : Span) :
    (s.move f).finish (stop.move f) = moveResult f id (s.finish stop) := by
  cases s <;> rfl

variable {f}

theorem checkPlaceholder_move (mono : Monotone f) (h : MovesBy f l k) :
    checkPlaceholder (l.move f) = moveResult f id (checkPlaceholder l) := by
  have hblank : (l.move f).isBlank = l.isBlank := rfl
  unfold checkPlaceholder
  rw [hblank]
  split
  · rfl
  · rw [Record.parse_move mono h]
    apply moveResult_bind
    intro r
    rw [Record.nodeType_move]
    apply moveResult_bind
    intro type
    simp only [id]
    split
    · rfl
    · rfl

/-- **A line leads on** from a moved state as it does from the old one. -/
theorem step_move (mono : Monotone f) (schema : Schema) (s : State) (h : MovesBy f l k) :
    (s.move f).step schema (l.move f) = moveResult f (move f) (s.step schema l) := by
  rcases s.placeholder_or_ne with ⟨a, forks, span, stack, rfl⟩ | hne
  · simp only [move, step, checkPlaceholder_move mono h]
    apply moveResult_bind
    intro _
    exact afterPlaceholder_move f a forks span stack
  · have hne' : ∀ a forks span stack, s.move f ≠ .placeholder a forks span stack := by
      intro a forks span stack hs
      cases s with
      | placeholder a forks span stack => exact hne a forks span stack rfl
      | _ => cases hs
    have hblank : (l.move f).isBlank = l.isBlank := rfl
    rw [step_eq_of_ne_placeholder hne, step_eq_of_ne_placeholder hne', hblank,
      Record.parse_move mono h]
    split
    · rfl
    · apply moveResult_bind
      intro r
      exact record_move f schema s r

end State

variable {f} in
/-- **Moved lines are read alike**, if each of them moves as a whole. -/
theorem read_move (mono : Monotone f) (schema : Schema) {lines : List Line}
    (moves : ∀ l ∈ lines, ∃ k, MovesBy f l k) (stop : Span) :
    ((lines.map (Line.move f)).foldlM (State.step schema) .header >>=
        (·.finish (stop.move f))) =
      moveResult f id (lines.foldlM (State.step schema) .header >>= (·.finish stop)) := by
  have hstep : ∀ s : State, ∀ l ∈ lines, (s.move f).step schema (l.move f) =
      moveResult f (State.move f) (s.step schema l) := by
    intro s l hl
    obtain ⟨k, hk⟩ := moves l hl
    exact State.step_move mono schema s hk
  have hrun : (lines.map (Line.move f)).foldlM (State.step schema) .header =
      moveResult f (State.move f) (lines.foldlM (State.step schema) .header) :=
    foldlM_move hstep .header
  rw [hrun]
  exact moveResult_bind fun s => State.finish_move f s stop

end DecisionModel.TreeFile
