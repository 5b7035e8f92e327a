import DecisionModel.Proofs.Source.Line
import DecisionModel.Proofs.TreeFile.Token
import DecisionModel.Proofs.TreeFile.WellFormed

/-!
# Text that is cut or goes on

Text that is read as a tree says itself where the tree ends.  If it is cut before a line that
is not blank, something is missing at its end; if it goes on with such a line, that line is
one too many.  So no tree text is the beginning of another.
-/

namespace DecisionModel

/-- The file up to the end of its line number `count`. -/
def SourceFile.firstLines (file : SourceFile) (count : Nat) : SourceFile :=
  { file with content := String.ofList (Line.firstLines count file.content.toList) }

/-- The file with more text behind. -/
def SourceFile.append (file : SourceFile) (more : String) : SourceFile :=
  { file with content := file.content ++ more }

/-- A span on the line. -/
structure Span.On (s : Span) (l : Line) : Prop where
  start_le : l.span.start ≤ s.start
  ordered : s.start ≤ s.stop
  stop_le : s.stop ≤ l.span.stop

namespace TreeFile

/-! ### Faults of records -/

theorem FieldState.error_of_step {s : FieldState} {t : Token TokenKind} {e : Located Fault}
    (h : s.step t = .error e) : e = ⟨.unexpected s.expected t.text, t.span, none⟩ := by
  unfold FieldState.step at h
  split at h <;> cases h
  rfl

theorem FieldState.error_of_finish {s : FieldState} {stop : Nat} {e : Located Fault}
    (h : s.finish stop = .error e) : e = ⟨.unexpectedLineEnd s.expected, .point stop, none⟩ := by
  unfold FieldState.finish at h
  split at h <;> cases h
  rfl

/-- A line that is no record is malformed at a place on it. -/
theorem Record.error_on_line {l : Line} {e : Located Fault} (h : Record.parse l = .error e) :
    e.fault.isUnresolved = false ∧ e.span.On l := by
  unfold Record.parse at h
  rcases hfold : (tokens l.offset l.text).foldlM FieldState.step FieldState.initial with e' | s
  · rw [hfold] at h
    cases h
    obtain ⟨s, t, ht, hstep⟩ := exists_step_of_foldlM_error hfold
    obtain rfl := FieldState.error_of_step hstep
    obtain ⟨hlow, hlt, hhigh⟩ := (between_tokens l.offset l.text).within ht
    exact ⟨rfl, hlow, Nat.le_of_lt hlt, hhigh⟩
  · rw [hfold] at h
    rcases hfinish : s.finish l.span.stop with e' | fields
    · simp only [bind, Except.bind, hfinish] at h
      cases h
      obtain rfl := FieldState.error_of_finish hfinish
      exact ⟨rfl, Nat.le_add_right _ _, Nat.le_refl _, Nat.le_refl _⟩
    · simp only [bind, Except.bind, hfinish, reduceCtorEq] at h

/-! ### Behind the tree -/

namespace State

variable (schema : Schema)

/-- A line that is not blank is refused behind a complete tree. -/
theorem step_complete_of_nonblank (top : Node) {l : Line} (h : l.isBlank = false) :
    ∃ e, (State.complete top).step schema l = .error e ∧ e.fault.isUnresolved = false ∧
      e.span.On l := by
  rw [step_eq_of_ne_placeholder (by simp), h]
  rcases hparse : Record.parse l with e | r
  · exact ⟨e, rfl, Record.error_on_line hparse⟩
  · refine ⟨⟨.trailingRecord, r.span, none⟩, rfl, rfl, ?_⟩
    have hspan : r.span = l.span := by
      unfold Record.parse at hparse
      obtain ⟨s, -, hparse⟩ := bind_eq_ok_iff.mp hparse
      obtain ⟨fields, -, hparse⟩ := bind_eq_ok_iff.mp hparse
      cases hparse
      rfl
    rw [hspan]
    exact ⟨Nat.le_refl _, Nat.le_add_right _ _, Nat.le_refl _⟩

theorem step_complete_of_blank (top : Node) {l : Line} (h : l.isBlank = true) :
    (State.complete top).step schema l = .ok (.complete top) := by
  rw [step_eq_of_ne_placeholder (by simp), if_pos h]

/-- Behind a complete tree, the first line that is not blank is refused. -/
theorem run_complete_of_nonblank (top : Node) {lines : List Line} {l : Line}
    (h : lines.find? (!·.isBlank) = some l) :
    ∃ e, lines.foldlM (State.step schema) (.complete top) = .error e ∧
      e.fault.isUnresolved = false ∧ e.span.On l := by
  induction lines with
  | nil => cases h
  | cons first rest ih =>
    rcases hblank : first.isBlank with _ | _
    · have hl : first = l := by simpa [hblank] using h
      subst hl
      obtain ⟨e, hstep, hfault⟩ := step_complete_of_nonblank schema top hblank
      refine ⟨e, ?_, hfault⟩
      rw [List.foldlM_cons, hstep]
      rfl
    · have hrest : rest.find? (!·.isBlank) = some l := by simpa [hblank] using h
      obtain ⟨e, hrun, hfault⟩ := ih hrest
      refine ⟨e, ?_, hfault⟩
      rw [foldlM_cons_ok (step_complete_of_blank schema top hblank), hrun]

/-- Text may end with a complete tree, and lacks something anywhere else. -/
theorem finish_cases (s : State) (stop : Span) :
    (∃ top, s = .complete top) ∨
      ∃ expected, s.finish stop = .error ⟨.unexpectedEnd expected, stop, none⟩ := by
  cases s with
  | complete top => exact .inl ⟨top, rfl⟩
  | header => exact .inr ⟨.node, rfl⟩
  | node stack => exact .inr ⟨.node, rfl⟩
  | placeholder a forks span stack => exact .inr ⟨.placeholder, rfl⟩
  | subsets a missing sets stack => exact .inr ⟨.subset, rfl⟩

end State

/-! ### Whole texts -/

theorem parse_of_run_error {schema : Schema} {file : SourceFile} {e : Located Fault}
    (h : (Line.ofText file.content.toList).foldlM (State.step schema) .header = .error e) :
    parse schema file = .error (.ofLocated .tree file e) := by
  rw [parse_eq_run, h]
  rfl

theorem parse_of_finish_error {schema : Schema} {file : SourceFile} {s : State} {e : Located Fault}
    (h : (Line.ofText file.content.toList).foldlM (State.step schema) .header = .ok s)
    (hfinish : s.finish file.endSpan = .error e) :
    parse schema file = .error (.ofLocated .tree file e) := by
  rw [parse_eq_run, h, ok_bind, hfinish]
  rfl

theorem kind_ofLocated_tree (file : SourceFile) {e : Located Fault}
    (h : e.fault.isUnresolved = false) :
    (ParseError.ofLocated .tree file e).kind = .malformed := by
  simp only [ParseError.kind, ParseError.ofLocated, Fault.kind, h, Bool.false_eq_true, if_false]

/-- Text that is cut before a line of its tree lacks something at its end. -/
theorem parse_firstLines {schema : Schema} {file : SourceFile} {tree : DecisionTree}
    (h : parse schema file = .ok tree) {count : Nat}
    (dropped : ∃ l ∈ (Line.ofText file.content.toList).drop count, l.isBlank = false) :
    ∃ expected, parse schema (file.firstLines count) = .error (.ofLocated .tree
      (file.firstLines count) ⟨.unexpectedEnd expected, (file.firstLines count).endSpan, none⟩) := by
  obtain ⟨top, hrun, -⟩ := run_of_parse h
  rw [← List.take_append_drop count (Line.ofText _)] at hrun
  obtain ⟨s, hkept, hrest⟩ := exists_of_foldlM_append_ok hrun
  have hlines : Line.ofText (file.firstLines count).content.toList =
      (Line.ofText file.content.toList).take count := by
    rw [SourceFile.firstLines, String.toList_ofList, Line.ofText_firstLines]
  rw [← hlines] at hkept
  rcases s.finish_cases (file.firstLines count).endSpan with ⟨top', rfl⟩ | ⟨expected, hfinish⟩
  · -- the tree would be complete, but a line follows that is not blank
    exfalso
    obtain ⟨l, hl, hblank⟩ := dropped
    obtain ⟨l', hfound⟩ : ∃ l', ((Line.ofText file.content.toList).drop count).find?
        (!·.isBlank) = some l' := by
      rw [← Option.isSome_iff_exists, List.find?_isSome]
      exact ⟨l, hl, by simpa using hblank⟩
    obtain ⟨e, hfails, -⟩ := State.run_complete_of_nonblank schema top' hfound
    rw [hfails] at hrest
    cases hrest
  · exact ⟨expected, parse_of_finish_error hkept hfinish⟩

/-- Text that goes on behind its tree is refused at the first line that is not blank. -/
theorem parse_append {schema : Schema} {file : SourceFile} {tree : DecisionTree}
    (h : parse schema file = .ok tree) (ended : file.content.toList.getLast? = some '\n')
    {more : String} {l : Line} (hl : (Line.ofText more.toList).find? (!·.isBlank) = some l) :
    ∃ e, parse schema (file.append more) = .error (.ofLocated .tree (file.append more) e) ∧
      e.fault.isUnresolved = false ∧ e.span.On (l.shift file.length) := by
  obtain ⟨top, hrun, -⟩ := run_of_parse h
  have hfound : ((Line.ofText more.toList).map (·.shift file.length)).find? (!·.isBlank) =
      some (l.shift file.length) := by
    rw [List.find?_map]
    exact congrArg (Option.map (·.shift file.length)) hl
  obtain ⟨e, hfails, hfault⟩ := State.run_complete_of_nonblank schema top hfound
  refine ⟨e, parse_of_run_error ?_, hfault⟩
  rw [SourceFile.append, String.toList_append, Line.ofText_append ended, foldlM_append_ok hrun]
  exact hfails

/-- **No tree text is the beginning of another.**  Cut behind any line but the last that is not
    blank, it ends too soon, which is said at its end.  With another line that is not blank
    behind its own, it is malformed, which is said on that line. -/
theorem prefixFree_of_parse {schema : Schema} {file : SourceFile} {tree : DecisionTree}
    (h : parse schema file = .ok tree) :
    (∀ count : Nat, (∃ l ∈ (Line.ofText file.content.toList).drop count, l.isBlank = false) →
      ∃ e, parse schema (file.firstLines count) = .error e ∧ e.kind = .malformed ∧
        (∃ expected, e.message = "unexpected end of file, expected " ++ expected) ∧
        e.span = .point (file.firstLines count).length) ∧
    (file.content.toList.getLast? = some '\n' → ∀ (more : String) (l : Line),
      (Line.ofText more.toList).find? (!·.isBlank) = some l →
      ∃ e, parse schema (file.append more) = .error e ∧ e.kind = .malformed ∧
        e.span.On (l.shift file.length)) := by
  constructor
  · intro count dropped
    obtain ⟨expected, herror⟩ := parse_firstLines h dropped
    exact ⟨_, herror, kind_ofLocated_tree _ rfl, ⟨expected.describe, rfl⟩, rfl⟩
  · intro ended more l hl
    obtain ⟨e, herror, hfault, hspan⟩ := parse_append h ended hl
    exact ⟨_, herror, kind_ofLocated_tree _ hfault, hspan⟩

/-- A test on values with its placeholder and a node. -/
def shortTree : SourceFile where
  name := "short.tree"
  content := "type=\"1\" att=\"count\" forks=\"2\"

type=\"0\" class=\"play\"
"

/-- The short tree is cut between the record of its test and the placeholder, and goes on with
    a blank line and another node. -/
theorem prefixFree_shortTree :
    parse policySchema shortTree = .ok ⟨"state", .integer, some <| .test
        [⟨⟨2⟩, .unbound, some ⟨.eq, .integer 0⟩, .terminal (.integer 2)⟩]⟩ ∧
      (∃ e, parse policySchema (shortTree.firstLines 1) = .error e ∧ e.kind = .malformed ∧
        (∃ expected, e.message = "unexpected end of file, expected " ++ expected) ∧
        e.span = .point 31) ∧
      ∃ e, parse policySchema (shortTree.append "\ntype=\"0\" class=\"stop\"\n") = .error e ∧
        e.kind = .malformed ∧ e.span.On ⟨"type=\"0\" class=\"stop\"".toList, 55⟩ := by
  have hparse : parse policySchema shortTree = .ok ⟨"state", .integer, some <| .test
      [⟨⟨2⟩, .unbound, some ⟨.eq, .integer 0⟩, .terminal (.integer 2)⟩]⟩ := by cbv
  obtain ⟨hcut, hmore⟩ := prefixFree_of_parse hparse
  have hended : shortTree.content.toList.getLast? = some '\n' := by cbv
  have hline : (Line.ofText "\ntype=\"0\" class=\"stop\"\n".toList).find? (!·.isBlank) =
      some ⟨"type=\"0\" class=\"stop\"".toList, 1⟩ := by cbv
  have hlength : shortTree.length = 54 := by cbv
  have hkept : (shortTree.firstLines 1).length = 31 := by cbv
  rw [hlength] at hmore
  refine ⟨hparse, ?_, hmore hended _ _ hline⟩
  rw [← hkept]
  refine hcut 1 ⟨⟨"type=\"0\" class=\"play\"".toList, 32⟩, ?_, by cbv⟩
  have hdropped : (Line.ofText shortTree.content.toList).drop 1 =
      [⟨[], 31⟩, ⟨"type=\"0\" class=\"play\"".toList, 32⟩] := by cbv
  rw [hdropped]
  simp

end TreeFile

end DecisionModel
