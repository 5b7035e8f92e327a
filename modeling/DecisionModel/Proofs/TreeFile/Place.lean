import DecisionModel.Proofs.Source.Place
import DecisionModel.Proofs.TreeFile.Step
import DecisionModel.Proofs.TreeFile.Token

/-!
# Places of faults in tree text

A line is read by readers that may fail, each of them described by what it gives and by where
it fails.  Tokens stand in their line, fields go from one of its tokens to another, and what
the readers of a record find at fault is one of its fields or values, or all of it.  Only the
span of a fork count is kept for later lines.
-/

namespace DecisionModel.TreeFile

open Text

/-! ### Tokens -/

/-- The text ends with what is open. -/
def Open.EndsText (offset : Nat) (text : List Char) : Open → Prop
  | .nothing => True
  | .name start reversed | .text start reversed => EndsWith offset text start reversed
  | .escape start reversed => EndsWith offset text start ('\\' :: reversed)

variable {offset : Nat} {before : List Char}

theorem standsIn_closed (kind : TokenKind) {start : Nat} {reversed : List Char}
    (h : EndsWith offset before start reversed) :
    (closed kind start reversed).StandsIn offset before :=
  h.standsIn kind

theorem standsIn_brokenText {start : Nat} {reversed : List Char}
    (h : EndsWith offset before start ('\\' :: reversed)) :
    ∀ t ∈ brokenText start reversed, t.StandsIn offset before := by
  obtain ⟨front, rfl, hfront, hplace⟩ := h.exists_before
  have hbackslash := standsIn_closed .error (endsWith_singleton offset front '\\')
  rw [closed, List.reverse_singleton] at hbackslash
  intro t ht
  rw [brokenText, hplace, List.mem_cons, List.mem_singleton] at ht
  rcases ht with rfl | rfl
  · exact (standsIn_closed .error hfront).append_right ['\\']
  · exact hbackslash

/-- One character, where nothing is open. -/
theorem standsIn_begin (offset : Nat) (before : List Char) (c : Char) :
    (∀ t ∈ (begin (offset + byteLength before) c).1, t.StandsIn offset (before ++ [c])) ∧
      (begin (offset + byteLength before) c).2.EndsText offset (before ++ [c]) := by
  have hends := endsWith_singleton offset before c
  unfold begin
  split
  · exact ⟨by simp, trivial⟩
  · split
    · exact ⟨by simp, hends⟩
    · split
      · exact ⟨by simp, hends⟩
      · refine ⟨?_, trivial⟩
        intro t ht
        rw [List.mem_singleton] at ht
        subst ht
        exact hends.standsIn _

/-- One character keeps the tokens standing, and the text ending with what is open. -/
theorem standsIn_step (offset : Nat) (before : List Char) (c : Char) (state : Open)
    (h : state.EndsText offset before) :
    (∀ t ∈ (step (offset + byteLength before) c state).1, t.StandsIn offset (before ++ [c])) ∧
      (step (offset + byteLength before) c state).2.EndsText offset (before ++ [c]) := by
  cases state with
  | nothing => exact standsIn_begin offset before c
  | name start reversed =>
    by_cases hrest : isNameRest c = true
    · simp only [step, hrest, if_true]
      exact ⟨by simp, EndsWith.concat h c⟩
    · obtain ⟨htokens, hopen⟩ := standsIn_begin offset before c
      simp only [step, hrest]
      refine ⟨?_, hopen⟩
      intro t ht
      rcases List.mem_cons.mp ht with rfl | hmem
      · exact (standsIn_closed .name h).append_right [c]
      · exact htokens t hmem
  | text start reversed =>
    by_cases hquote : c = '"'
    · simp only [step, hquote, if_true]
      refine ⟨?_, trivial⟩
      intro t ht
      rw [List.mem_singleton] at ht
      subst ht
      exact standsIn_closed .text (EndsWith.concat h '"')
    · by_cases hbackslash : c = '\\'
      · simp only [step, hbackslash]
        exact ⟨by simp, EndsWith.concat h '\\'⟩
      · simp only [step, hquote, hbackslash, if_false]
        exact ⟨by simp, EndsWith.concat h c⟩
  | escape start reversed =>
    by_cases hfeed : c = '\n'
    · obtain ⟨htokens, hopen⟩ := standsIn_begin offset before c
      simp only [step, hfeed, if_true] at htokens hopen ⊢
      refine ⟨?_, hopen⟩
      intro t ht
      rcases List.mem_append.mp ht with hbroken | hmem
      · exact (standsIn_brokenText h t hbroken).append_right ['\n']
      · exact htokens t hmem
    · simp only [step, hfeed, if_false]
      exact ⟨by simp, EndsWith.concat h c⟩

theorem standsIn_close (offset : Nat) (before : List Char) (state : Open)
    (h : state.EndsText offset before) : ∀ t ∈ close state, t.StandsIn offset before := by
  intro t ht
  cases state with
  | nothing => cases ht
  | name start reversed =>
    rw [close, List.mem_singleton] at ht
    subst ht
    exact standsIn_closed .name h
  | text start reversed =>
    rw [close, List.mem_singleton] at ht
    subst ht
    exact standsIn_closed .error h
  | escape start reversed => exact standsIn_brokenText h t ht

/-- **The tokens of a record cover their texts** in its line. -/
theorem standsIn_tokens (offset : Nat) (record : List Char) :
    ∀ t ∈ tokens offset record, t.StandsIn offset record := by
  have hnothing : Open.nothing.EndsText offset [] := trivial
  exact scans.forall_mem (fun _ more _ h => h.append_right more) (standsIn_step offset)
    (standsIn_close offset) [] hnothing record

/-! ### Readers -/

/-- A reader gives what satisfies `post`, or its fault is at a span that satisfies `p` and has to
    do with no other place. -/
structure Reads (p : Span → Prop) {α : Type} (x : Except (Located Fault) α) (post : α → Prop) :
    Prop where
  result : ∀ a, x = .ok a → post a
  fault : ∀ e, x = .error e → p e.span ∧ e.related = none

namespace Reads

variable {p q : Span → Prop} {α β : Type} {post : α → Prop} {x : Except (Located Fault) α}

theorem ok {a : α} (h : post a) : Reads p (.ok a) post := by
  constructor
  · intro b hb
    cases hb
    exact h
  · intro e he
    cases he

theorem error {fault : Fault} {span : Span} (h : p span) :
    Reads p (.error ⟨fault, span, none⟩) post := by
  constructor
  · intro a ha
    cases ha
  · intro e he
    cases he
    exact ⟨h, rfl⟩

theorem bind {next : α → Except (Located Fault) β} {post' : β → Prop} (hx : Reads p x post)
    (hnext : ∀ a, post a → Reads p (next a) post') : Reads p (x >>= next) post' := by
  constructor
  · intro b hb
    obtain ⟨a, ha, hb⟩ := bind_eq_ok_iff.mp hb
    exact (hnext a (hx.result a ha)).result b hb
  · intro e he
    rcases bind_eq_error_iff.mp he with hfails | ⟨a, ha, hfails⟩
    · exact hx.fault e hfails
    · exact (hnext a (hx.result a ha)).fault e hfails

theorem imp {post' : α → Prop} (hx : Reads p x post) (hspan : ∀ s, p s → q s)
    (hpost : ∀ a, post a → post' a) : Reads q x post' := by
  constructor
  · intro a ha
    exact hpost a (hx.result a ha)
  · intro e he
    obtain ⟨hat, hnone⟩ := hx.fault e he
    exact ⟨hspan _ hat, hnone⟩

theorem mapM {f : β → Except (Located Fault) α} {ys : List β}
    (h : ∀ y ∈ ys, Reads p (f y) fun _ => True) : Reads p (ys.mapM f) fun _ => True := by
  induction ys with
  | nil => exact .ok trivial
  | cons y rest ih =>
    rw [List.mapM_cons]
    apply (h y (by simp)).bind
    intro z _
    apply (ih fun w hw => h w (by simp [hw])).bind
    intro zs _
    exact .ok trivial

theorem foldlM {step : β → α → Except (Located Fault) β} {inv : β → Prop} {xs : List α}
    (h : ∀ s, ∀ x ∈ xs, inv s → Reads p (step s x) inv) {s : β} (start : inv s) :
    Reads p (xs.foldlM step s) inv := by
  have preserved : ∀ s x t, x ∈ xs → inv s → step s x = .ok t → inv t := by
    intro s x t hx hs hstep
    exact (h s x hx hs).result t hstep
  constructor
  · intro t run
    exact foldlM_invariant preserved start run
  · intro e run
    obtain ⟨t, x, hx, ht, hfails⟩ := exists_state_of_foldlM_error inv preserved start run
    exact (h t x hx ht).fault e hfails

end Reads

/-! ### Fields -/

variable {p q : Span → Prop}

structure Field.SpansIn (p : Span → Prop) (f : Field) : Prop where
  span : p f.span
  values : ∀ v ∈ f.values, p v.2

structure Record.SpansIn (p : Span → Prop) (r : Record) : Prop where
  span : p r.span
  fields : ∀ f ∈ r.fields, f.SpansIn p

theorem Record.SpansIn.imp {r : Record} (h : r.SpansIn p) (hspan : ∀ s, p s → q s) :
    r.SpansIn q := by
  refine ⟨hspan _ h.span, ?_⟩
  intro f hf
  obtain ⟨hfield, hvalues⟩ := h.fields f hf
  exact ⟨hspan _ hfield, fun v hv => hspan _ (hvalues v hv)⟩

def FieldPhase.SpansIn (p : Span → Prop) : FieldPhase → Prop
  | .start => True
  | .named _ span | .first _ span => p span
  | .valued f | .next f => f.SpansIn p

structure FieldState.SpansIn (p : Span → Prop) (s : FieldState) : Prop where
  fields : ∀ f ∈ s.fields, f.SpansIn p
  phase : s.phase.SpansIn p

section

variable (hcover : ∀ a b, p a → p b → p (a.cover b))

include hcover

theorem FieldState.spansIn_addValue {f : Field} (hf : f.SpansIn p) {t : Token TokenKind}
    (ht : p t.span) : (addValue f t).SpansIn p := by
  constructor
  · exact hcover _ _ hf.span ht
  · exact List.forall_mem_append.mpr ⟨hf.values, List.forall_mem_singleton.mpr ht⟩

theorem FieldState.reads_step {s : FieldState} (hs : s.SpansIn p) {t : Token TokenKind}
    (ht : p t.span) : Reads p (s.step t) (·.SpansIn p) := by
  obtain ⟨hfields, hphase⟩ := hs
  unfold FieldState.step
  -- the tokens that can be taken, phase by phase, and at last a token that is refused
  split
  case h_1 => exact .ok ⟨hfields, ht⟩
  case h_2 name span hnamed _ =>
    rw [hnamed] at hphase
    exact .ok ⟨hfields, hphase⟩
  case h_3 name span hfirst _ =>
    rw [hfirst] at hphase
    have hbare : (⟨name, span, []⟩ : Field).SpansIn p := ⟨hphase, by simp⟩
    exact .ok ⟨hfields, spansIn_addValue hcover hbare ht⟩
  case h_4 f hvalued _ =>
    rw [hvalued] at hphase
    exact .ok ⟨hfields, hphase⟩
  case h_5 f hvalued _ =>
    rw [hvalued] at hphase
    have hall : ∀ g ∈ s.fields ++ [f], g.SpansIn p :=
      List.forall_mem_append.mpr ⟨hfields, List.forall_mem_singleton.mpr hphase⟩
    exact .ok ⟨hall, ht⟩
  case h_6 f hnext _ =>
    rw [hnext] at hphase
    exact .ok ⟨hfields, spansIn_addValue hcover hphase ht⟩
  case h_7 => exact .error ht

end

theorem FieldState.reads_finish {s : FieldState} (hs : s.SpansIn p) {stop : Nat}
    (hstop : p (.point stop)) :
    Reads p (s.finish stop) fun fields => ∀ f ∈ fields, f.SpansIn p := by
  obtain ⟨hfields, hphase⟩ := hs
  unfold FieldState.finish
  split
  · exact .ok hfields
  · rename_i f hvalued
    rw [hvalued] at hphase
    exact .ok (List.forall_mem_append.mpr ⟨hfields, List.forall_mem_singleton.mpr hphase⟩)
  · exact .error hstop

/-- **A record is read within its line.** -/
theorem Record.reads_parse (l : Line) :
    Reads (·.Within l.offset l.text) (Record.parse l) (·.SpansIn (·.Within l.offset l.text)) := by
  have hinitial : FieldState.initial.SpansIn (·.Within l.offset l.text) := by
    constructor
    · intro f hf
      cases hf
    · trivial
  unfold Record.parse
  apply Reads.bind
  · apply Reads.foldlM _ hinitial
    intro s t ht hs
    exact FieldState.reads_step (fun _ _ => Span.Within.cover) hs
      (standsIn_tokens _ _ t ht).within
  · intro s hs
    apply (FieldState.reads_finish hs (Span.covers_point l.offset l.text).within).bind
    intro fields hfields
    have hline : l.span.Covers l.offset l.text l.text := ⟨[], [], by simp, rfl, rfl⟩
    exact .ok ⟨hline.within, hfields⟩

theorem Field.reads_single {f : Field} (hf : f.SpansIn p) : Reads p f.single (p ·.2) := by
  unfold Field.single
  split
  · rename_i value hvalue
    exact .ok (hf.values value (by simp [hvalue]))
  · exact .error hf.span

section

variable {r : Record} (hr : r.SpansIn p)

include hr

theorem Record.spansIn_of_field? {name : String} {f : Field} (h : r.field? name = some f) :
    f.SpansIn p :=
  hr.fields f (List.mem_of_find?_eq_some h)

theorem Record.reads_required (name : String) : Reads p (r.required name) (·.SpansIn p) := by
  unfold Record.required
  split
  · rename_i f hf
    exact .ok (Record.spansIn_of_field? hr hf)
  · exact .error hr.span

theorem Record.reads_value (name : String) : Reads p (r.value name) (p ·.2) := by
  unfold Record.value
  apply (Record.reads_required hr name).bind
  intro f hf
  exact Field.reads_single hf

/-! ### Records -/

theorem Record.reads_nodeType : Reads p r.nodeType fun _ => True := by
  unfold Record.nodeType
  apply (Record.reads_value hr "type").bind
  rintro ⟨type, span⟩ hspan
  dsimp only
  split
  · exact .ok trivial
  · exact .ok trivial
  · exact .ok trivial
  · exact .ok trivial
  · exact .error hspan

theorem Record.reads_forks : Reads p r.forks fun _ => True := by
  unfold Record.forks
  apply (Record.reads_value hr "forks").bind
  rintro ⟨text, span⟩ hspan
  dsimp only
  split
  · split
    · exact .ok trivial
    · exact .error hspan
  · exact .error hspan

theorem Record.reads_terminal (schema : Schema) : Reads p (r.terminal schema) fun _ => True := by
  unfold Record.terminal
  apply (Record.reads_value hr "class").bind
  rintro ⟨value, span⟩ hspan
  dsimp only
  split
  · exact .ok trivial
  · exact .error hspan

theorem Record.reads_tested (schema : Schema) : Reads p (r.tested schema) fun _ => True := by
  unfold Record.tested
  apply (Record.reads_value hr "att").bind
  rintro ⟨name, span⟩ hspan
  dsimp only
  split
  · exact .ok trivial
  · exact .error hspan

end

theorem Field.reads_codes {f : Field} (hf : f.SpansIn p) (a : Attribute) :
    Reads p (f.codes a) fun _ => True := by
  unfold Field.codes
  apply Reads.mapM
  rintro ⟨value, span⟩ hmem
  dsimp only
  split
  · exact .ok trivial
  · exact .error (hf.values _ hmem)

/-! ### States -/

namespace State

/-- The span that a state keeps satisfies `p`, if it keeps one. -/
def SpanIn (p : Span → Prop) : State → Prop
  | .placeholder _ _ span _ => p span
  | _ => True

theorem spanIn_plug (child : Node) (stack : List Frame) : (plug child stack).SpanIn p := by
  induction stack generalizing child with
  | nil => trivial
  | cons f stack ih =>
    unfold plug
    split
    · exact ih _
    · trivial

theorem spanIn_descend (branches : List (Branch Unit)) (stack : List Frame) :
    (descend branches stack).SpanIn p := by
  unfold descend
  split
  · exact spanIn_plug _ stack
  · trivial

section

variable {r : Record} (hr : r.SpansIn p)

include hr

theorem reads_openSubsets (a : Attribute) (forks : Nat) (stack : List Frame) :
    Reads p (openSubsets r a forks stack) (·.SpanIn p) := by
  have hnamed : ∀ f ∈ r.fieldsNamed "elts", f.SpansIn p := by
    intro f hf
    exact hr.fields f (List.mem_filter.mp hf).1
  unfold openSubsets
  split
  · exact .ok trivial
  · rename_i extra more hfields
    rw [hfields] at hnamed
    split
    · have hsets := Reads.mapM fun f hf => Field.reads_codes (hnamed f hf) a
      apply hsets.bind
      intro sets _
      exact .ok (spanIn_descend _ stack)
    · exact .error (hnamed extra (by simp)).span

theorem reads_nodeRecord (schema : Schema) (stack : List Frame) :
    Reads p (nodeRecord schema r stack) (·.SpanIn p) := by
  unfold nodeRecord
  apply (Record.reads_nodeType hr).bind
  intro type _
  cases type with
  | leaf =>
    apply (Record.reads_terminal hr schema).bind
    intro n _
    exact .ok (spanIn_plug n stack)
  | values =>
    apply (Record.reads_tested hr schema).bind
    intro a _
    apply (Record.reads_forks hr).bind
    intro forks _
    apply (Record.reads_required hr "forks").bind
    intro f hf
    exact .ok hf.span
  | threshold =>
    apply (Record.reads_tested hr schema).bind
    intro a _
    apply (Record.reads_forks hr).bind
    intro forks _
    exact .ok (spanIn_descend _ stack)
  | subsets =>
    apply (Record.reads_tested hr schema).bind
    intro a _
    apply (Record.reads_forks hr).bind
    intro forks _
    exact reads_openSubsets hr a forks stack

theorem reads_isHeader : Reads p (isHeader r) fun _ => True := by
  unfold isHeader
  split
  · exact .ok trivial
  · split
    · rename_i entries hentries
      apply (Field.reads_single (Record.spansIn_of_field? hr hentries)).bind
      rintro ⟨count, span⟩ hspan
      dsimp only
      split
      · exact .ok trivial
      · exact .error hspan
    · exact .ok trivial

theorem reads_subsetRecord (a : Attribute) (missing : Nat) (sets : List (List Int))
    (stack : List Frame) : Reads p (subsetRecord r a missing sets stack) (·.SpanIn p) := by
  unfold subsetRecord
  apply (Record.reads_required hr "elts").bind
  intro f hf
  apply (Field.reads_codes hf a).bind
  intro codes _
  dsimp only
  split
  · exact .ok (spanIn_descend _ stack)
  · exact .ok trivial

theorem reads_record (schema : Schema) {s : State} (hs : s.SpanIn p) :
    Reads p (s.record schema r) (·.SpanIn p) := by
  cases s with
  | header =>
    apply (reads_isHeader hr).bind
    intro header _
    cases header with
    | true => exact .ok trivial
    | false => exact reads_nodeRecord hr schema []
  | node stack => exact reads_nodeRecord hr schema stack
  | placeholder a forks span stack => exact .ok hs
  | subsets a missing sets stack => exact reads_subsetRecord hr a missing sets stack
  | complete top => exact .error hr.span

end

theorem reads_checkPlaceholder (l : Line) :
    Reads (·.Within l.offset l.text) (checkPlaceholder l) fun _ => True := by
  unfold checkPlaceholder
  split
  · exact .ok trivial
  · apply (Record.reads_parse l).bind
    intro r hr
    apply (Record.reads_nodeType hr).bind
    intro type _
    split
    · exact .ok trivial
    · exact .error hr.span

theorem reads_afterPlaceholder {span : Span} (hspan : p span) (a : Attribute) (forks : Nat)
    (stack : List Frame) : Reads p (afterPlaceholder a forks span stack) (·.SpanIn p) := by
  unfold afterPlaceholder
  split
  · exact .error hspan
  · exact .ok (spanIn_descend _ stack)

/-- One line fails on itself or on the line of a fork count that was kept. -/
theorem reads_step {text : List Char} {l : Line} (hl : l.StandsIn text) (schema : Schema)
    {s : State} (hs : s.SpanIn (·.OnOneLine text)) :
    Reads (·.OnOneLine text) (s.step schema l) (·.SpanIn (·.OnOneLine text)) := by
  have hline : ∀ span : Span, span.Within l.offset l.text → span.OnOneLine text :=
    fun _ hspan => hspan.onOneLine hl
  rcases s.placeholder_or_ne with ⟨a, forks, span, stack, rfl⟩ | hne
  · apply ((reads_checkPlaceholder l).imp hline fun _ h => h).bind
    intro _ _
    exact reads_afterPlaceholder hs a forks stack
  · rw [step_eq_of_ne_placeholder hne]
    split
    · exact .ok hs
    · apply ((Record.reads_parse l).imp hline fun _ hr => hr.imp hline).bind
      intro r hr
      exact reads_record hr schema hs

theorem reads_finish (s : State) {stop : Span} (hstop : p stop) :
    Reads p (s.finish stop) fun _ => True := by
  unfold finish
  split
  · exact .ok trivial
  · exact .error hstop
  · exact .error hstop
  · exact .error hstop
  · exact .error hstop

end State

/-- **A fault of tree text is on one of its lines**, and has to do with no other place. -/
theorem onOneLine_of_parse_error {schema : Schema} {file : SourceFile} {e : ParseError}
    (h : parse schema file = .error e) :
    ∃ fault, e = .ofLocated .tree file fault ∧ fault.span.OnOneLine file.content.toList ∧
      fault.related = none := by
  obtain ⟨fault, hread, rfl⟩ := mapError_eq_error_iff.mp h
  refine ⟨fault, rfl, ?_⟩
  have hlines : Reads (·.OnOneLine file.content.toList)
      ((Line.ofText file.content.toList).foldlM (State.step schema) .header)
      (·.SpanIn (·.OnOneLine file.content.toList)) := by
    refine Reads.foldlM ?_ trivial
    intro s l hl hs
    exact State.reads_step (Line.standsIn_ofText _ l hl) schema hs
  have hwhole : ∀ s : State, Reads (·.OnOneLine file.content.toList)
      (s.finish file.endSpan >>= fun top => .ok (DecisionTree.withTop schema top))
      fun _ => True := by
    intro s
    apply (State.reads_finish s file.onOneLine_endSpan).bind
    intro top _
    exact .ok trivial
  exact (hlines.bind fun s _ => hwhole s).fault fault hread

end DecisionModel.TreeFile
