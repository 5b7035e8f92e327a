import Mathlib.Data.List.Induction
import DecisionModel.Proofs.Names.Schema

/-!
# Statements of schema text

A statement is a few tokens: a name and a dot, or a name, a colon, names with commas between
them and a dot.  Reading token by token takes such statements, one after the other, and nothing
else.  What it has read then depends on the statements only.
-/

namespace DecisionModel.Names

/-! ### Statements -/

/-- A token of the given kind. -/
abbrev TokenOf (kind : TokenKind) := { t : Token TokenKind // t.kind = kind }

/-- A statement, token by token. -/
inductive Statement where
  | declaration (name : TokenOf .name) (dot : TokenOf .dot)
  /-- After the first value, each has a comma in front. -/
  | definition (name : TokenOf .name) (colon : TokenOf .colon) (first : TokenOf .name)
      (more : List (TokenOf .comma × TokenOf .name)) (dot : TokenOf .dot)

namespace Statement

/-- The tokens of a definition up to one of its values. -/
def upToValue (name : TokenOf .name) (colon : TokenOf .colon) (first : TokenOf .name)
    (more : List (TokenOf .comma × TokenOf .name)) : List (Token TokenKind) :=
  [name.1, colon.1, first.1] ++ more.flatMap fun (comma, value) => [comma.1, value.1]

def tokens : Statement → List (Token TokenKind)
  | .declaration name dot => [name.1, dot.1]
  | .definition name colon first more dot => upToValue name colon first more ++ [dot.1]

def valuesOf (first : TokenOf .name) (more : List (TokenOf .comma × TokenOf .name)) :
    List String :=
  first.1.text :: more.map (·.2.1.text)

/-- The name that is declared and the place behind the dot. -/
def declared? : Statement → Option (Mention × Nat)
  | .declaration name dot => some (.ofToken name, dot.1.span.stop)
  | .definition .. => none

/-- The attribute that is defined with its values. -/
def defined? : Statement → Option (Mention × List String)
  | .declaration .. => none
  | .definition name _ first more _ => some (.ofToken name, valuesOf first more)

end Statement

/-- The names that statements declare, each with the place behind its dot. -/
def declarations (ss : List Statement) : List (Mention × Nat) := ss.filterMap Statement.declared?

/-- The attributes that statements define, each with its values. -/
def definitions (ss : List Statement) : List (Mention × List String) :=
  ss.filterMap Statement.defined?

/-- The names of the attributes that statements define. -/
def definedNames (ss : List Statement) : List String := (definitions ss).map (·.1.name)

/-- No attribute is defined twice. -/
def Distinct (ss : List Statement) : Prop := (definedNames ss).Nodup

instance (ss : List Statement) : Decidable (Distinct ss) :=
  inferInstanceAs (Decidable (List.Nodup _))

/-- The attributes of definitions. -/
def attributesOf (defined : List (Mention × List String)) : List Attribute :=
  defined.mapIdx fun i (name, values) => attributeOf name.name ⟨i⟩ values

/-- The state behind a statement. -/
def State.after (s : State) : Statement → State
  | .declaration name dot => s.declare (.ofToken name) dot.1.span.stop
  | .definition name _ first more _ => s.complete (.ofToken name) (Statement.valuesOf first more)

/-- The state behind statements. -/
def State.afterAll (ss : List Statement) : State := ss.foldl State.after .initial

theorem definitions_concat (ss : List Statement) (st : Statement) :
    definitions (ss ++ [st]) = definitions ss ++ st.defined?.toList := by
  rw [definitions, List.filterMap_append]
  cases st <;> rfl

theorem declarations_concat (ss : List Statement) (st : Statement) :
    declarations (ss ++ [st]) = declarations ss ++ st.declared?.toList := by
  rw [declarations, List.filterMap_append]
  cases st <;> rfl

theorem mem_definedNames {ss : List Statement} {name : String} :
    name ∈ definedNames ss ↔ ∃ m values, (m, values) ∈ definitions ss ∧ m.name = name := by
  simp [definedNames]

/-- One more statement may define a new attribute, or none. -/
theorem distinct_concat_iff {ss : List Statement} {st : Statement} :
    Distinct (ss ++ [st]) ↔ Distinct ss ∧
      ∀ name values, st.defined? = some (name, values) → name.name ∉ definedNames ss := by
  unfold Distinct definedNames
  rw [definitions_concat, List.map_append]
  rcases st.defined? with _ | ⟨name, values⟩
  · simp
  · rw [Option.toList_some, List.map_singleton, List.nodup_append]
    constructor
    · rintro ⟨hold, -, hnew⟩
      refine ⟨hold, ?_⟩
      rintro _ _ heq hmem
      cases heq
      exact hnew _ hmem _ (List.mem_singleton_self _) rfl
    · rintro ⟨hold, hnew⟩
      refine ⟨hold, List.nodup_singleton _, ?_⟩
      rintro a ha b hb rfl
      rw [List.mem_singleton] at hb
      subst hb
      exact hnew name values rfl ha

theorem State.afterAll_concat (ss : List Statement) (st : Statement) :
    State.afterAll (ss ++ [st]) = (State.afterAll ss).after st := by
  simp [State.afterAll]

theorem values_ne_nil {ss : List Statement} {name : Mention} {values : List String}
    (h : (name, values) ∈ definitions ss) : values ≠ [] := by
  obtain ⟨st, -, hdefined⟩ := List.mem_filterMap.mp h
  cases st with
  | declaration => cases hdefined
  | definition =>
    cases hdefined
    simp [Statement.valuesOf]

/-! ### The attributes that statements define -/

theorem name_attributeOf (name : String) (id : AttrId) {values : List String} (hne : values ≠ []) :
    (attributeOf name id values).name = name := by
  rw [attributeOf_eq name id hne]
  split <;> rfl

theorem attributesOf_concat (defined : List (Mention × List String)) (name : Mention)
    (values : List String) :
    attributesOf (defined ++ [(name, values)]) =
      attributesOf defined ++ [attributeOf name.name ⟨defined.length⟩ values] :=
  List.mapIdx_concat

theorem mem_attributesOf {defined : List (Mention × List String)} {a : Attribute} :
    a ∈ attributesOf defined ↔ ∃ (i : Nat) (name : Mention) (values : List String),
      defined[i]? = some (name, values) ∧ a = attributeOf name.name ⟨i⟩ values := by
  simp only [attributesOf, List.mem_iff_getElem?, List.getElem?_mapIdx, Option.map_eq_some_iff,
    Prod.exists]
  constructor
  · rintro ⟨i, name, values, hi, rfl⟩
    exact ⟨i, name, values, hi, rfl⟩
  · rintro ⟨i, name, values, hi, rfl⟩
    exact ⟨i, name, values, hi, rfl⟩

theorem map_name_attributesOf (ss : List Statement) :
    (attributesOf (definitions ss)).map (·.name) = definedNames ss := by
  apply List.ext_getElem?
  intro i
  simp only [definedNames, attributesOf, List.getElem?_map, List.getElem?_mapIdx, Option.map_map]
  rcases hi : (definitions ss)[i]? with _ | ⟨name, values⟩
  · rfl
  · have hne := values_ne_nil (List.mem_of_getElem? hi)
    simp [name_attributeOf name.name ⟨i⟩ hne]

/-- **Statements that define distinct attributes** lead to a builder with these attributes. -/
theorem builder_afterAll {ss : List Statement} (h : Distinct ss) :
    (State.afterAll ss).builder = ⟨attributesOf (definitions ss)⟩ := by
  induction ss using List.reverseRecOn with
  | nil => rfl
  | append_singleton ss st ih =>
    obtain ⟨hss, hnew⟩ := distinct_concat_iff.mp h
    have hbuilder := ih hss
    rw [State.afterAll_concat, definitions_concat]
    cases st with
    | declaration name dot =>
      rw [Statement.defined?, Option.toList_none, List.append_nil]
      exact hbuilder
    | definition name colon first more dot =>
      have hfresh : (State.afterAll ss).builder.contains (Mention.ofToken name.1).name = false := by
        rw [← Bool.not_eq_true, SchemaBuilder.contains_iff_mem_names, hbuilder, map_name_attributesOf]
        exact hnew _ _ rfl
      have hlength : (attributesOf (definitions ss)).length = (definitions ss).length :=
        List.length_mapIdx
      have hdefine := defineAttribute_of_fresh hfresh (Statement.valuesOf first more)
      rw [hbuilder, hlength] at hdefine
      rw [Statement.defined?, Option.toList_some, attributesOf_concat]
      simp only [State.after, State.complete, hbuilder, hdefine]

theorem contains_afterAll {ss : List Statement} (h : Distinct ss) {name : String} :
    (State.afterAll ss).builder.contains name = true ↔ name ∈ definedNames ss := by
  rw [SchemaBuilder.contains_iff_mem_names, builder_afterAll h, map_name_attributesOf]

/-! ### Reading statements -/

section

variable (s : State)

theorem step_name (hs : s.phase = .start) (t : TokenOf .name) :
    s.step t.1 = .ok { s with phase := .named (.ofToken t.1) } := by
  simp only [State.step, hs, t.2]

theorem step_dot {name : Mention} (hs : s.phase = .named name) (t : TokenOf .dot) :
    s.step t.1 = .ok (s.declare name t.1.span.stop) := by
  simp only [State.step, hs, t.2]

theorem step_colon {name : Mention} (hs : s.phase = .named name) (t : TokenOf .colon) :
    s.step t.1 = if s.builder.contains name.name then .error ⟨.redefined name.name, name.span, none⟩
      else .ok { s with phase := .value name [] } := by
  simp only [State.step, hs, t.2]

theorem step_value {name : Mention} {values : List String} (hs : s.phase = .value name values)
    (t : TokenOf .name) :
    s.step t.1 = .ok { s with phase := .separator name (values ++ [t.1.text]) } := by
  simp only [State.step, hs, t.2]

theorem step_comma {name : Mention} {values : List String} (hs : s.phase = .separator name values)
    (t : TokenOf .comma) : s.step t.1 = .ok { s with phase := .value name values } := by
  simp only [State.step, hs, t.2]

theorem step_last {name : Mention} {values : List String} (hs : s.phase = .separator name values)
    (t : TokenOf .dot) : s.step t.1 = .ok (s.complete name values) := by
  simp only [State.step, hs, t.2]

/-- The values of a definition after the first, with the commas. -/
theorem run_more (name : Mention) (more : List (TokenOf .comma × TokenOf .name)) :
    ∀ values : List String,
      (more.flatMap fun (comma, value) => [comma.1, value.1]).foldlM State.step
        { s with phase := .separator name values } =
      .ok { s with phase := .separator name (values ++ more.map (·.2.1.text)) } := by
  induction more with
  | nil =>
    intro values
    rw [List.map_nil, List.append_nil]
    rfl
  | cons pair more ih =>
    obtain ⟨comma, value⟩ := pair
    intro values
    have hcomma := step_comma { s with phase := .separator name values } rfl comma
    have hvalue := step_value { s with phase := .value name values } rfl value
    rw [List.flatMap_cons, List.cons_append, List.cons_append, List.nil_append,
      foldlM_cons_ok hcomma, foldlM_cons_ok hvalue, ih]
    simp

/-- A statement that defines a new attribute, or none, is read. -/
theorem run_statement (hs : s.phase = .start) (st : Statement)
    (fresh : ∀ name values, st.defined? = some (name, values) →
      s.builder.contains name.name = false) :
    st.tokens.foldlM State.step s = .ok (s.after st) := by
  cases st with
  | declaration name dot =>
    have hdot := step_dot { s with phase := .named (.ofToken name.1) } rfl dot
    rw [Statement.tokens, foldlM_cons_ok (step_name s hs name), foldlM_cons_ok hdot]
    rfl
  | definition name colon first more dot =>
    have hcontains := fresh _ _ rfl
    have hcolon := step_colon { s with phase := .named (.ofToken name.1) } rfl colon
    rw [hcontains, if_neg (by simp)] at hcolon
    have hfirst := step_value { s with phase := .value (.ofToken name.1) [] } rfl first
    have hmore := run_more s (.ofToken name.1) more [first.1.text]
    have hdot := step_last
      { s with phase := .separator (.ofToken name.1) (Statement.valuesOf first more) } rfl dot
    rw [Statement.tokens, Statement.upToValue, List.append_assoc, List.cons_append,
      List.cons_append, List.cons_append, List.nil_append, foldlM_cons_ok (step_name s hs name),
      foldlM_cons_ok hcolon, foldlM_cons_ok hfirst, List.nil_append, foldlM_append_ok hmore]
    exact (foldlM_cons_ok hdot).trans rfl

/-- A statement that defines an attribute again is refused. -/
theorem run_statement_of_known (hs : s.phase = .start) {st : Statement} {name : Mention}
    {values : List String} (defined : st.defined? = some (name, values))
    (known : s.builder.contains name.name = true) :
    ∃ e, st.tokens.foldlM State.step s = .error e := by
  cases st with
  | declaration => cases defined
  | definition name colon first more dot =>
    cases defined
    have hcolon := step_colon { s with phase := .named (.ofToken name.1) } rfl colon
    rw [known, if_pos rfl] at hcolon
    have herror : (Statement.definition name colon first more dot).tokens.foldlM State.step s =
        .error ⟨.redefined name.1.text, name.1.span, none⟩ := by
      rw [Statement.tokens, Statement.upToValue, List.append_assoc, List.cons_append,
        List.cons_append, foldlM_cons_ok (step_name s hs name), List.foldlM_cons, hcolon]
      rfl
    exact ⟨_, herror⟩

end

theorem phase_afterAll (ss : List Statement) : (State.afterAll ss).phase = .start := by
  induction ss using List.reverseRecOn with
  | nil => rfl
  | append_singleton ss st ih =>
    rw [State.afterAll_concat]
    cases st <;> rfl

/-- **Statements that define distinct attributes are read**, one after the other. -/
theorem run_of_distinct {ss : List Statement} (h : Distinct ss) :
    (ss.flatMap Statement.tokens).foldlM State.step .initial = .ok (State.afterAll ss) := by
  induction ss using List.reverseRecOn with
  | nil => rfl
  | append_singleton ss st ih =>
    obtain ⟨hss, hnew⟩ := distinct_concat_iff.mp h
    rw [List.flatMap_append, foldlM_append_ok (ih hss), List.flatMap_singleton,
      State.afterAll_concat]
    refine run_statement _ (phase_afterAll ss) st ?_
    intro name values hdefined
    rw [← Bool.not_eq_true, contains_afterAll hss]
    exact hnew name values hdefined

/-- Statements that define an attribute twice are refused. -/
theorem run_of_not_distinct {ss : List Statement} (h : ¬ Distinct ss) :
    ∃ e, (ss.flatMap Statement.tokens).foldlM State.step .initial = .error e := by
  induction ss using List.reverseRecOn with
  | nil => exact absurd List.nodup_nil h
  | append_singleton ss st ih =>
    rw [List.flatMap_append, List.flatMap_singleton]
    by_cases hss : Distinct ss
    · -- the last statement is the one that defines an attribute again
      rw [distinct_concat_iff] at h
      push Not at h
      obtain ⟨name, values, hdefined, hknown⟩ := h hss
      rw [foldlM_append_ok (run_of_distinct hss)]
      exact run_statement_of_known _ (phase_afterAll ss) hdefined
        ((contains_afterAll hss).mpr hknown)
    · obtain ⟨e, he⟩ := ih hss
      refine ⟨e, ?_⟩
      rw [List.foldlM_append, he]
      rfl

/-! ### Nothing else is read -/

/-- The tokens that lead to a phase from the start of a statement. -/
def Phase.Opened (opened : List (Token TokenKind)) : Phase → Prop
  | .start => opened = []
  | .named name => ∃ n : TokenOf .name, opened = [n.1] ∧ name = .ofToken n.1
  | .value name values =>
    (∃ (n : TokenOf .name) (colon : TokenOf .colon), opened = [n.1, colon.1] ∧
      name = .ofToken n.1 ∧ values = []) ∨
    ∃ (n : TokenOf .name) (colon : TokenOf .colon) (first : TokenOf .name)
      (more : List (TokenOf .comma × TokenOf .name)) (comma : TokenOf .comma),
      opened = Statement.upToValue n colon first more ++ [comma.1] ∧ name = .ofToken n.1 ∧
        values = Statement.valuesOf first more
  | .separator name values =>
    ∃ (n : TokenOf .name) (colon : TokenOf .colon) (first : TokenOf .name)
      (more : List (TokenOf .comma × TokenOf .name)),
      opened = Statement.upToValue n colon first more ∧ name = .ofToken n.1 ∧
        values = Statement.valuesOf first more

/-- The invariant of reading: complete statements, and the beginning of another. -/
def State.Behind (s : State) (ts : List (Token TokenKind)) : Prop :=
  ∃ (ss : List Statement) (opened : List (Token TokenKind)) (phase : Phase),
    ts = ss.flatMap Statement.tokens ++ opened ∧ phase.Opened opened ∧
      s = { State.afterAll ss with phase := phase }

/-- The last token of a statement. -/
theorem behind_concat {ss : List Statement} {opened : List (Token TokenKind)}
    {t : Token TokenKind} (st : Statement) (htokens : st.tokens = opened ++ [t]) :
    ((State.afterAll ss).after st).Behind (ss.flatMap Statement.tokens ++ opened ++ [t]) := by
  refine ⟨ss ++ [st], [], .start, ?_, rfl, ?_⟩
  · rw [List.flatMap_append, List.flatMap_singleton, htokens, List.append_nil, List.append_assoc]
  · rw [State.afterAll_concat]
    cases st <;> rfl

/-- One token keeps the invariant. -/
theorem State.Behind.step {s s' : State} {ts : List (Token TokenKind)} (h : s.Behind ts)
    {t : Token TokenKind} (hstep : s.step t = .ok s') : s'.Behind (ts ++ [t]) := by
  obtain ⟨ss, opened, phase, rfl, hopened, rfl⟩ := h
  cases phase with
  | start =>
    cases hkind : t.kind <;> simp only [State.step, hkind, Except.ok.injEq, reduceCtorEq] at hstep
    subst hstep
    cases hopened
    exact ⟨ss, [t], .named (.ofToken t), by simp, ⟨⟨t, hkind⟩, rfl, rfl⟩, rfl⟩
  | named name =>
    obtain ⟨n, rfl, rfl⟩ := hopened
    cases hkind : t.kind <;> simp only [State.step, hkind, Except.ok.injEq, reduceCtorEq] at hstep
    · subst hstep
      exact behind_concat (.declaration n ⟨t, hkind⟩) rfl
    · split at hstep
      · cases hstep
      · cases hstep
        exact ⟨ss, [n.1, t], .value (.ofToken n.1) [], by simp,
          .inl ⟨n, ⟨t, hkind⟩, rfl, rfl, rfl⟩, rfl⟩
  | value name values =>
    cases hkind : t.kind <;> simp only [State.step, hkind, Except.ok.injEq, reduceCtorEq] at hstep
    subst hstep
    -- the value is the first one, or stands behind a comma
    rcases hopened with ⟨n, colon, rfl, rfl, rfl⟩ | ⟨n, colon, first, more, comma, rfl, rfl, rfl⟩
    · exact ⟨ss, _, .separator (.ofToken n.1) [t.text], List.append_assoc _ _ _,
        ⟨n, colon, ⟨t, hkind⟩, [], rfl, rfl, rfl⟩, rfl⟩
    · refine ⟨ss, _, .separator (.ofToken n.1) (Statement.valuesOf first more ++ [t.text]),
        List.append_assoc _ _ _, ⟨n, colon, first, more ++ [(comma, ⟨t, hkind⟩)], ?_, rfl, ?_⟩, rfl⟩
      · simp [Statement.upToValue]
      · simp [Statement.valuesOf]
  | separator name values =>
    obtain ⟨n, colon, first, more, rfl, rfl, rfl⟩ := hopened
    cases hkind : t.kind <;> simp only [State.step, hkind, Except.ok.injEq, reduceCtorEq] at hstep
    · subst hstep
      exact behind_concat (.definition n colon first more ⟨t, hkind⟩) rfl
    · subst hstep
      exact ⟨ss, _, .value (.ofToken n.1) (Statement.valuesOf first more),
        List.append_assoc _ _ _, .inr ⟨n, colon, first, more, ⟨t, hkind⟩, rfl, rfl, rfl⟩, rfl⟩

theorem behind_of_run {ts : List (Token TokenKind)} {s : State}
    (h : ts.foldlM State.step .initial = .ok s) : s.Behind ts :=
  foldlM_history ⟨[], [], .start, rfl, rfl, rfl⟩ (fun _ _ _ _ hread => hread.step) h

/-- **What is read to the end of a statement** is statements that define distinct attributes. -/
theorem run_to_start_iff {ts : List (Token TokenKind)} {s : State} :
    ts.foldlM State.step .initial = .ok s ∧ s.phase = .start ↔
      ∃ ss, ts = ss.flatMap Statement.tokens ∧ Distinct ss ∧ s = State.afterAll ss := by
  constructor
  · rintro ⟨hrun, hphase⟩
    obtain ⟨ss, opened, phase, rfl, hopened, rfl⟩ := behind_of_run hrun
    cases hphase
    cases hopened
    rw [List.append_nil] at hrun ⊢
    by_cases hdistinct : Distinct ss
    · rw [run_of_distinct hdistinct] at hrun
      exact ⟨ss, rfl, hdistinct, (Except.ok.inj hrun).symm⟩
    · obtain ⟨e, he⟩ := run_of_not_distinct hdistinct
      rw [he] at hrun
      cases hrun
  · rintro ⟨ss, rfl, hdistinct, rfl⟩
    exact ⟨run_of_distinct hdistinct, phase_afterAll ss⟩

end DecisionModel.Names
