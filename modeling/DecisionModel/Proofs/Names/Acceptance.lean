import DecisionModel.Proofs.Names.Statement

/-!
# Which schema texts are accepted

A text that is not made of statements, or defines an attribute twice, is malformed.  All other
texts are accepted unless their decision cannot be used: none is declared, or the attribute that
is meant is continuous or not defined.  What a declaration means may stand right behind it, so
the places of tokens matter: as tokens stand in order, at most one definition starts where a
declaration ends.
-/

namespace DecisionModel.Names

/-! ### The declaration that counts -/

/-- Tokens that are not empty, each behind those before it. -/
structure InOrder (ts : List (Token TokenKind)) : Prop where
  behind : ts.Pairwise fun t u => t.span.stop ≤ u.span.start
  nonempty : ∀ t ∈ ts, t.span.start < t.span.stop

theorem inOrder_tokens (text : List Char) : InOrder (tokens text) where
  behind := (between_tokens text).pairwise
  nonempty := fun _ ht => ((between_tokens text).within ht).2.1

theorem InOrder.left {ts us : List (Token TokenKind)} (h : InOrder (ts ++ us)) : InOrder ts where
  behind := (List.pairwise_append.mp h.behind).1
  nonempty := fun t ht => h.nonempty t (by simp [ht])

theorem exists_token_of_defined {ss : List Statement} {m : Mention} {values : List String}
    (h : (m, values) ∈ definitions ss) : ∃ t ∈ ss.flatMap Statement.tokens, m = .ofToken t := by
  obtain ⟨st, hst, hdefined⟩ := List.mem_filterMap.mp h
  cases st with
  | declaration => cases hdefined
  | definition name colon first more dot =>
    cases hdefined
    refine ⟨name.1, List.mem_flatMap.mpr ⟨_, hst, ?_⟩, rfl⟩
    simp [Statement.tokens, Statement.upToValue]

/-- A definition starts before all that stands behind its statement. -/
theorem start_lt_of_defined {ss : List Statement} {us : List (Token TokenKind)}
    (h : InOrder (ss.flatMap Statement.tokens ++ us)) {m : Mention} {values : List String}
    (hmem : (m, values) ∈ definitions ss) {u : Token TokenKind} (hu : u ∈ us) :
    m.span.start < u.span.start := by
  obtain ⟨t, ht, rfl⟩ := exists_token_of_defined hmem
  have hbehind := (List.pairwise_append.mp h.behind).2.2 t ht u hu
  have hnonempty := h.left.nonempty t ht
  exact Nat.lt_of_lt_of_le hnonempty hbehind

theorem target_follow (d : Declaration) (m : Mention) : (d.follow m).target = d.target := by
  unfold Declaration.follow
  split <;> rfl

theorem stop_follow (d : Declaration) (m : Mention) : (d.follow m).stop = d.stop := by
  unfold Declaration.follow
  split <;> rfl

/-- The last declaration counts. -/
theorem declaration_afterAll (ss : List Statement) :
    (State.afterAll ss).declaration.map (fun d => (d.target, d.stop)) =
      (declarations ss).getLast? := by
  induction ss using List.reverseRecOn with
  | nil => rfl
  | append_singleton ss st ih =>
    rw [State.afterAll_concat, declarations_concat]
    cases st with
    | declaration name dot =>
      rw [Statement.declared?, Option.toList_some, List.getLast?_concat]
      rfl
    | definition name colon first more dot =>
      rw [Statement.declared?, Option.toList_none, List.append_nil, ← ih]
      simp only [State.after, State.complete, Option.map_map, Function.comp_def, target_follow,
        stop_follow]

/-- The follower of the declaration that counts is the attribute whose definition starts where
    the declaration ends. -/
theorem follower_afterAll {ss : List Statement} (h : InOrder (ss.flatMap Statement.tokens)) :
    ∀ d, (State.afterAll ss).declaration = some d →
      ∀ m, d.follower = some m ↔ (∃ values, (m, values) ∈ definitions ss) ∧ m.span.start = d.stop := by
  induction ss using List.reverseRecOn with
  | nil =>
    intro d hd
    cases hd
  | append_singleton ss st ih =>
    rw [List.flatMap_append, List.flatMap_singleton] at h
    rw [State.afterAll_concat, definitions_concat]
    intro d hd m
    cases st with
    | declaration name dot =>
      cases hd
      rw [Statement.defined?, Option.toList_none, List.append_nil]
      constructor
      · intro hnone
        cases hnone
      · rintro ⟨⟨values, hmem⟩, hstart⟩
        have hbefore := start_lt_of_defined h hmem (u := dot.1) (by simp [Statement.tokens])
        have hdot := h.nonempty dot.1 (by simp [Statement.tokens])
        dsimp only at hstart
        omega
    | definition name colon first more dot =>
      obtain ⟨d, hbefore, rfl⟩ := Option.map_eq_some_iff.mp hd
      have hold := ih h.left d hbefore m
      rw [stop_follow, Statement.defined?, Option.toList_some]
      simp only [List.mem_append, List.mem_singleton, Prod.mk.injEq]
      unfold Declaration.follow
      by_cases hadjacent : d.stop = (Mention.ofToken name.1).span.start
      · simp only [hadjacent, if_true, Option.some.injEq]
        constructor
        · rintro rfl
          exact ⟨⟨_, .inr ⟨rfl, rfl⟩⟩, rfl⟩
        · rintro ⟨⟨values, hmem | ⟨rfl, -⟩⟩, hstart⟩
          · have hbefore := start_lt_of_defined h hmem (u := name.1)
              (by simp [Statement.tokens, Statement.upToValue])
            simp only [Mention.ofToken] at hstart
            omega
          · rfl
      · rw [if_neg hadjacent, hold]
        constructor
        · rintro ⟨⟨values, hmem⟩, hstart⟩
          exact ⟨⟨values, .inl hmem⟩, hstart⟩
        · rintro ⟨⟨values, hmem | ⟨rfl, -⟩⟩, hstart⟩
          · exact ⟨⟨values, hmem⟩, hstart⟩
          · exact absurd hstart.symm hadjacent

/-- The declaration that counts, as the reader has kept it. -/
theorem exists_declaration {ss : List Statement}
    (ordered : InOrder (ss.flatMap Statement.tokens)) {d : Mention} {stop : Nat}
    (h : (declarations ss).getLast? = some (d, stop)) :
    ∃ follower, (State.afterAll ss).declaration = some ⟨d, stop, follower⟩ ∧
      ∀ m, follower = some m ↔ (∃ values, (m, values) ∈ definitions ss) ∧ m.span.start = stop := by
  rw [← declaration_afterAll] at h
  obtain ⟨⟨target, place, follower⟩, hd, heq⟩ := Option.map_eq_some_iff.mp h
  cases heq
  exact ⟨follower, hd, follower_afterAll ordered _ hd⟩

/-! ### What can be decided -/

/-- The attribute that the statements decide: the one declared last, or if that is not defined
    the one whose definition starts right behind its declaration. -/
inductive Decides (ss : List Statement) : String → Prop
  | declared {d m : Mention} {stop : Nat} {values : List String} :
      (declarations ss).getLast? = some (d, stop) → (m, values) ∈ definitions ss →
      m.name = d.name → values ≠ [State.continuous] → Decides ss d.name
  | adjacent {d m : Mention} {stop : Nat} {values : List String} :
      (declarations ss).getLast? = some (d, stop) → d.name ∉ definedNames ss →
      (m, values) ∈ definitions ss → m.span.start = stop → values ≠ [State.continuous] →
      Decides ss m.name

/-- The statements decide no attribute. -/
inductive Undecided (ss : List Statement) : Prop
  | undeclared : declarations ss = [] → Undecided ss
  | continuous {d m : Mention} {stop : Nat} :
      (declarations ss).getLast? = some (d, stop) → (m, [State.continuous]) ∈ definitions ss →
      m.name = d.name → Undecided ss
  | undefined {d : Mention} {stop : Nat} :
      (declarations ss).getLast? = some (d, stop) → d.name ∉ definedNames ss →
      (∀ m values, (m, values) ∈ definitions ss → m.span.start ≠ stop) → Undecided ss
  | adjacentContinuous {d m : Mention} {stop : Nat} :
      (declarations ss).getLast? = some (d, stop) → d.name ∉ definedNames ss →
      (m, [State.continuous]) ∈ definitions ss → m.span.start = stop → Undecided ss

theorem undecided_or_decides (ss : List Statement) : Undecided ss ∨ ∃ name, Decides ss name := by
  rcases hlast : (declarations ss).getLast? with _ | ⟨d, stop⟩
  · exact .inl (.undeclared (List.getLast?_eq_none_iff.mp hlast))
  by_cases hdefined : d.name ∈ definedNames ss
  · obtain ⟨m, values, hmem, hname⟩ := mem_definedNames.mp hdefined
    by_cases hvalues : values = [State.continuous]
    · subst hvalues
      exact .inl (.continuous hlast hmem hname)
    · exact .inr ⟨_, .declared hlast hmem hname hvalues⟩
  by_cases hadjacent : ∃ m values, (m, values) ∈ definitions ss ∧ m.span.start = stop
  · obtain ⟨m, values, hmem, hstart⟩ := hadjacent
    by_cases hvalues : values = [State.continuous]
    · subst hvalues
      exact .inl (.adjacentContinuous hlast hdefined hmem hstart)
    · exact .inr ⟨_, .adjacent hlast hdefined hmem hstart hvalues⟩
  · refine .inl (.undefined hlast hdefined ?_)
    intro m values hmem hstart
    exact hadjacent ⟨m, values, hmem, hstart⟩

/-! ### Finishing the builder -/

section

variable {ss : List Statement} (distinct : Distinct ss)

include distinct

theorem finish_of_undefined {name : String} (h : name ∉ definedNames ss) :
    (State.afterAll ss).builder.finish name = .error (.missingDecision name) := by
  apply SchemaBuilder.finish_of_unknown
  rw [← Bool.not_eq_true, contains_afterAll distinct]
  exact h

theorem names_distinct_afterAll :
    ((State.afterAll ss).builder.attributes.map (·.name)).Nodup := by
  rw [builder_afterAll distinct, map_name_attributesOf]
  exact distinct

theorem exists_attribute_of_defined {m : Mention} {values : List String}
    (h : (m, values) ∈ definitions ss) :
    ∃ id, attributeOf m.name id values ∈ (State.afterAll ss).builder.attributes := by
  obtain ⟨i, hi⟩ := List.mem_iff_getElem?.mp h
  rw [builder_afterAll distinct]
  exact ⟨⟨i⟩, mem_attributesOf.mpr ⟨i, m, values, hi, rfl⟩⟩

theorem finish_of_defined_continuous {m : Mention}
    (h : (m, [State.continuous]) ∈ definitions ss) :
    (State.afterAll ss).builder.finish m.name = .error (.decisionNotEnumerated m.name) := by
  obtain ⟨id, hmem⟩ := exists_attribute_of_defined distinct h
  exact SchemaBuilder.finish_of_continuous (names_distinct_afterAll distinct) hmem rfl

/-- An attribute that is defined with values can be the decision. -/
theorem finish_of_defined {m : Mention} {values : List String} (h : (m, values) ∈ definitions ss)
    (enumerated : values ≠ [State.continuous]) :
    ∃ schema, (State.afterAll ss).builder.finish m.name = .ok schema ∧
      schema.attributes = attributesOf (definitions ss) ∧
      schema.decisionAttribute.name = m.name := by
  have hne := values_ne_nil h
  obtain ⟨id, hmem⟩ := exists_attribute_of_defined distinct h
  have ha := attributeOf_eq m.name id hne
  rw [if_neg enumerated] at ha
  have hdense := dense_attributeOf m.name id values
  rw [ha] at hmem hdense
  have hvalues : numbered values ≠ [] := by
    obtain ⟨first, rest, rfl⟩ := List.exists_cons_of_ne_nil hne
    simp [numbered, List.eraseDups_cons]
  obtain ⟨schema, hfinish, hattributes, hdecision, -⟩ := SchemaBuilder.finish_of_numbered
    (names_distinct_afterAll distinct) hmem rfl hvalues hdense
  refine ⟨schema, hfinish, ?_, ?_⟩
  · rw [hattributes, builder_afterAll distinct]
  · rw [hdecision]

end

/-! ### Finishing the text -/

/-- What can be wrong with the decision of a text: none is declared, or it is missing or
    continuous. -/
inductive Fault.OfDecision : Fault → Prop
  | undeclared : OfDecision .noDecision
  | missing (name : String) : OfDecision (.unusableDecision (.missingDecision name))
  | continuous (name : String) : OfDecision (.unusableDecision (.decisionNotEnumerated name))

theorem State.finish_of_ok {s : State} (hs : s.phase = .start) {d : Declaration}
    (hd : s.declaration = some d) {schema : Schema}
    (h : s.builder.finish (s.resolve d).name = .ok schema) (stop : Span) :
    s.finish stop = .ok schema := by
  simp only [State.finish, hs, hd, h]

theorem State.finish_of_error {s : State} (hs : s.phase = .start) {d : Declaration}
    (hd : s.declaration = some d) {reason : SchemaError}
    (h : s.builder.finish (s.resolve d).name = .error reason) (stop : Span) :
    ∃ e, s.finish stop = .error e ∧ e.fault = .unusableDecision reason := by
  have hfinish : s.finish stop = .error ⟨.unusableDecision reason, (s.resolve d).span,
      (s.definitions.find? fun m =>
        m.name == (s.resolve d).name && m.span != (s.resolve d).span).map (·.span)⟩ := by
    simp only [State.finish, hs, hd, h]
  exact ⟨_, hfinish, rfl⟩

theorem State.finish_of_undeclared {s : State} (hs : s.phase = .start) (hd : s.declaration = none)
    (stop : Span) : s.finish stop = .error ⟨.noDecision, stop, none⟩ := by
  simp only [State.finish, hs, hd]

/-- A text that breaks off within a statement is malformed. -/
theorem State.finish_of_open {s : State} (hs : s.phase ≠ .start) (stop : Span) :
    s.finish stop = .error ⟨.unexpectedEnd s.expected, stop, none⟩ := by
  unfold State.finish
  rcases hphase : s.phase with _ | _ | _ | _
  · exact absurd hphase hs
  all_goals rfl

section

variable {ss : List Statement} (distinct : Distinct ss)

include distinct

/-- A declaration means the attribute that it names, if that is defined. -/
theorem resolve_of_defined {d : Mention} (h : d.name ∈ definedNames ss) (stop : Nat)
    (follower : Option Mention) : (State.afterAll ss).resolve ⟨d, stop, follower⟩ = d := by
  have hcontains := (contains_afterAll distinct).mpr h
  unfold State.resolve
  rcases follower with _ | follower
  · rfl
  · exact if_pos hcontains

/-- Else it means its follower, if it has one. -/
theorem resolve_of_undefined {d : Mention} (h : d.name ∉ definedNames ss) (stop : Nat)
    (follower : Option Mention) :
    (State.afterAll ss).resolve ⟨d, stop, follower⟩ = follower.getD d := by
  have hcontains : ¬ (State.afterAll ss).builder.contains d.name = true := by
    rw [contains_afterAll distinct]
    exact h
  unfold State.resolve
  rcases follower with _ | follower
  · rfl
  · exact if_neg hcontains

variable (ordered : InOrder (ss.flatMap Statement.tokens))

include ordered

/-- Statements that decide an attribute make a schema with it. -/
theorem finish_of_decides {name : String} (h : Decides ss name) (stop : Span) :
    ∃ schema, (State.afterAll ss).finish stop = .ok schema ∧
      schema.attributes = attributesOf (definitions ss) ∧
      schema.decisionAttribute.name = name := by
  cases h with
  | @declared d m place values hlast hmem hname hvalues =>
    obtain ⟨follower, hd, -⟩ := exists_declaration ordered hlast
    have hresolve := resolve_of_defined distinct
      (mem_definedNames.mpr ⟨m, _, hmem, hname⟩) place follower
    obtain ⟨schema, hfinish, hattributes, hdecision⟩ := finish_of_defined distinct hmem hvalues
    rw [hname] at hfinish hdecision
    refine ⟨schema, State.finish_of_ok (phase_afterAll ss) hd ?_ stop, hattributes, hdecision⟩
    rw [hresolve]
    exact hfinish
  | @adjacent d m place values hlast hundefined hmem hstart hvalues =>
    obtain ⟨follower, hd, hfollower⟩ := exists_declaration ordered hlast
    obtain rfl := (hfollower m).mpr ⟨⟨values, hmem⟩, hstart⟩
    have hresolve : (State.afterAll ss).resolve ⟨d, place, some m⟩ = m :=
      resolve_of_undefined distinct hundefined place (some m)
    obtain ⟨schema, hfinish, hattributes, hdecision⟩ := finish_of_defined distinct hmem hvalues
    refine ⟨schema, State.finish_of_ok (phase_afterAll ss) hd ?_ stop, hattributes, hdecision⟩
    rw [hresolve]
    exact hfinish

/-- Statements that decide none are refused. -/
theorem finish_of_undecided (h : Undecided ss) (stop : Span) :
    ∃ e, (State.afterAll ss).finish stop = .error e ∧ e.fault.OfDecision := by
  have hstart := phase_afterAll ss
  cases h with
  | undeclared hnone =>
    have hd : (State.afterAll ss).declaration = none := by
      have hlast := declaration_afterAll ss
      rw [hnone, List.getLast?_nil] at hlast
      exact Option.map_eq_none_iff.mp hlast
    exact ⟨_, State.finish_of_undeclared hstart hd stop, .undeclared⟩
  | @continuous d m place hlast hmem hname =>
    obtain ⟨follower, hd, -⟩ := exists_declaration ordered hlast
    have hresolve := resolve_of_defined distinct
      (mem_definedNames.mpr ⟨m, _, hmem, hname⟩) place follower
    have hfinish := finish_of_defined_continuous distinct hmem
    rw [hname] at hfinish
    obtain ⟨e, he, hfault⟩ := State.finish_of_error hstart hd (hresolve.symm ▸ hfinish) stop
    exact ⟨e, he, hfault ▸ .continuous _⟩
  | @undefined d place hlast hundefined hnone =>
    obtain ⟨follower, hd, hfollower⟩ := exists_declaration ordered hlast
    have hno : follower = none := by
      rw [Option.eq_none_iff_forall_ne_some]
      intro m hm
      obtain ⟨⟨values, hmem⟩, hplace⟩ := (hfollower m).mp hm
      exact hnone m values hmem hplace
    subst hno
    have hresolve : (State.afterAll ss).resolve ⟨d, place, none⟩ = d :=
      resolve_of_undefined distinct hundefined place none
    have hfinish := finish_of_undefined distinct hundefined
    obtain ⟨e, he, hfault⟩ := State.finish_of_error hstart hd (hresolve.symm ▸ hfinish) stop
    exact ⟨e, he, hfault ▸ .missing _⟩
  | @adjacentContinuous d m place hlast hundefined hmem hplace =>
    obtain ⟨follower, hd, hfollower⟩ := exists_declaration ordered hlast
    obtain rfl := (hfollower m).mpr ⟨⟨_, hmem⟩, hplace⟩
    have hresolve : (State.afterAll ss).resolve ⟨d, place, some m⟩ = m :=
      resolve_of_undefined distinct hundefined place (some m)
    have hfinish := finish_of_defined_continuous distinct hmem
    obtain ⟨e, he, hfault⟩ := State.finish_of_error hstart hd (hresolve.symm ▸ hfinish) stop
    exact ⟨e, he, hfault ▸ .continuous _⟩

end

/-! ### Whole texts -/

/-- The tokens of the file are those of the statements. -/
def ConsistsOf (file : SourceFile) (ss : List Statement) : Prop :=
  tokens file.content.toList = ss.flatMap Statement.tokens

theorem ConsistsOf.inOrder {file : SourceFile} {ss : List Statement} (h : ConsistsOf file ss) :
    InOrder (ss.flatMap Statement.tokens) := h ▸ inOrder_tokens _

/-- What a text of statements comes to, if no attribute is defined twice. -/
theorem parse_of_statements {file : SourceFile} {ss : List Statement}
    (htokens : ConsistsOf file ss) (distinct : Distinct ss) :
    parse file = ((State.afterAll ss).finish file.endSpan).mapError (.ofLocated .names file) := by
  unfold parse
  unfold ConsistsOf at htokens
  rw [htokens, run_of_distinct distinct]
  rfl

theorem step_fault {s : State} {t : Token TokenKind} {e : Located Fault} (h : s.step t = .error e) :
    (DecisionModel.Fault.names e.fault).kind = .malformed := by
  unfold State.step at h
  split at h
  case h_3 =>
    split at h
    · cases h
      rfl
    · cases h
  all_goals
    cases h
  rfl

theorem parse_of_run_error {file : SourceFile} {e : Located Fault}
    (h : (tokens file.content.toList).foldlM State.step .initial = .error e) :
    parse file = .error (.ofLocated .names file e) ∧
      (ParseError.ofLocated .names file e).kind = .malformed := by
  obtain ⟨_, _, _, hstep⟩ := exists_step_of_foldlM_error h
  refine ⟨?_, step_fault hstep⟩
  unfold parse
  rw [h]
  rfl

/-- A text that is not made of statements is malformed. -/
theorem parse_of_no_statements {file : SourceFile}
    (h : ∀ ss, ¬ ConsistsOf file ss) :
    ∃ e, parse file = .error e ∧ e.kind = .malformed := by
  rcases hrun : (tokens file.content.toList).foldlM State.step .initial with e | s
  · exact ⟨_, parse_of_run_error hrun⟩
  · have hopen : s.phase ≠ .start := by
      intro hstart
      obtain ⟨ss, htokens, -⟩ := run_to_start_iff.mp ⟨hrun, hstart⟩
      exact h ss htokens
    refine ⟨.ofLocated .names file ⟨.unexpectedEnd s.expected, file.endSpan, none⟩, ?_, rfl⟩
    unfold parse
    rw [hrun, ok_bind, State.finish_of_open hopen]
    rfl

/-- A text that defines an attribute twice is malformed. -/
theorem parse_of_not_distinct {file : SourceFile} {ss : List Statement}
    (htokens : ConsistsOf file ss) (h : ¬ Distinct ss) :
    ∃ e, parse file = .error e ∧ e.kind = .malformed := by
  obtain ⟨e, he⟩ := run_of_not_distinct h
  unfold ConsistsOf at htokens
  rw [← htokens] at he
  exact ⟨_, parse_of_run_error he⟩

/-- Statements that decide an attribute are read as a schema with it. -/
theorem parse_of_decides {file : SourceFile} {ss : List Statement}
    (htokens : ConsistsOf file ss) (distinct : Distinct ss)
    {name : String} (h : Decides ss name) :
    ∃ schema, parse file = .ok schema ∧ schema.attributes = attributesOf (definitions ss) ∧
      schema.decisionAttribute.name = name := by
  obtain ⟨schema, hfinish, hschema⟩ := finish_of_decides distinct htokens.inOrder h file.endSpan
  refine ⟨schema, ?_, hschema⟩
  rw [parse_of_statements htokens distinct, hfinish]
  rfl

/-- A text that is read is made of statements that define distinct attributes, which are those of
    the schema. -/
theorem exists_statements_of_parse {file : SourceFile} {schema : Schema}
    (h : parse file = .ok schema) :
    ∃ ss, ConsistsOf file ss ∧ Distinct ss ∧ schema.attributes = attributesOf (definitions ss) := by
  obtain ⟨s, hrun, hfinish⟩ := run_of_parse h
  have hstart : s.phase = .start := by
    by_contra hopen
    rw [State.finish_of_open hopen] at hfinish
    cases hfinish
  obtain ⟨ss, htokens, hdistinct, rfl⟩ := run_to_start_iff.mp ⟨hrun, hstart⟩
  obtain ⟨d, -, hschema⟩ := State.finish_ok hfinish
  refine ⟨ss, htokens, hdistinct, ?_⟩
  rw [(SchemaBuilder.finish_ok hschema).1, builder_afterAll hdistinct]

/-- Statements that decide none are refused. -/
theorem parse_of_undecided {file : SourceFile} {ss : List Statement}
    (htokens : ConsistsOf file ss) (distinct : Distinct ss) (h : Undecided ss) :
    ∃ e, parse file = .error (.ofLocated .names file e) ∧ e.fault.OfDecision := by
  obtain ⟨e, hfinish, hfault⟩ := finish_of_undecided distinct htokens.inOrder h file.endSpan
  refine ⟨e, ?_, hfault⟩
  rw [parse_of_statements htokens distinct, hfinish]
  rfl

theorem kind_of_ofDecision (file : SourceFile) {e : Located Fault} (h : e.fault.OfDecision) :
    (ParseError.ofLocated .names file e).kind = .inconsistent := by
  unfold ParseError.kind ParseError.ofLocated
  cases hfault : e.fault with
  | noDecision | unusableDecision => rfl
  | _ =>
    rw [hfault] at h
    cases h

/-- A text is malformed exactly if it is not made of statements or defines an attribute twice. -/
theorem malformed_iff (file : SourceFile) :
    (∃ e, parse file = .error e ∧ e.kind = .malformed) ↔
      (∀ ss, ¬ ConsistsOf file ss) ∨ ∃ ss, ConsistsOf file ss ∧ ¬ Distinct ss := by
  constructor
  · rintro ⟨e, herror, hkind⟩
    by_cases hstatements : ∃ ss, ConsistsOf file ss
    · obtain ⟨ss, htokens⟩ := hstatements
      refine .inr ⟨ss, htokens, ?_⟩
      intro hdistinct
      rcases undecided_or_decides ss with hundecided | ⟨name, hdecides⟩
      · obtain ⟨l, herror', hfault⟩ := parse_of_undecided htokens hdistinct hundecided
        obtain rfl := Except.error.inj (herror.symm.trans herror')
        rw [kind_of_ofDecision file hfault] at hkind
        cases hkind
      · obtain ⟨schema, hok, -⟩ := parse_of_decides htokens hdistinct hdecides
        cases hok.symm.trans herror
    · exact .inl fun ss htokens => hstatements ⟨ss, htokens⟩
  · rintro (hno | ⟨ss, htokens, hrepeated⟩)
    · exact parse_of_no_statements hno
    · exact parse_of_not_distinct htokens hrepeated

section

variable {file : SourceFile} {ss : List Statement} (htokens : ConsistsOf file ss)
  (distinct : Distinct ss)

include htokens distinct

/-- Statements are inconsistent exactly if they decide no attribute. -/
theorem inconsistent_iff :
    (∃ e, parse file = .error e ∧ e.kind = .inconsistent) ↔ Undecided ss := by
  constructor
  · rintro ⟨e, herror, -⟩
    rcases undecided_or_decides ss with hundecided | ⟨name, hdecides⟩
    · exact hundecided
    · obtain ⟨schema, hok, -⟩ := parse_of_decides htokens distinct hdecides
      cases hok.symm.trans herror
  · intro hundecided
    obtain ⟨l, herror, hfault⟩ := parse_of_undecided htokens distinct hundecided
    exact ⟨_, herror, kind_of_ofDecision file hfault⟩

/-- Statements are accepted with a decision exactly if they decide it. -/
theorem accepted_iff (name : String) :
    (∃ schema, parse file = .ok schema ∧ schema.decisionAttribute.name = name) ↔
      Decides ss name := by
  constructor
  · rintro ⟨schema, hok, rfl⟩
    rcases undecided_or_decides ss with hundecided | ⟨name, hdecides⟩
    · obtain ⟨l, herror, -⟩ := parse_of_undecided htokens distinct hundecided
      cases hok.symm.trans herror
    · obtain ⟨schema', hok', -, hname⟩ := parse_of_decides htokens distinct hdecides
      obtain rfl := Except.ok.inj (hok.symm.trans hok')
      rw [hname]
      exact hdecides
  · intro hdecides
    obtain ⟨schema, hok, -, hname⟩ := parse_of_decides htokens distinct hdecides
    exact ⟨schema, hok, hname⟩

end

/-- Every text that is refused is malformed, or something is wrong with its decision. -/
theorem error_cases {file : SourceFile} {e : ParseError} (h : parse file = .error e) :
    e.kind = .malformed ∨
      ∃ l : Located Fault, e = .ofLocated .names file l ∧ l.fault.OfDecision := by
  by_cases hstatements : ∃ ss, ConsistsOf file ss ∧ Distinct ss
  · right
    obtain ⟨ss, htokens, hdistinct⟩ := hstatements
    rcases undecided_or_decides ss with hundecided | ⟨name, hdecides⟩
    · obtain ⟨l, herror, hfault⟩ := parse_of_undecided htokens hdistinct hundecided
      exact ⟨l, Except.error.inj (h.symm.trans herror), hfault⟩
    · obtain ⟨schema, hok, -⟩ := parse_of_decides htokens hdistinct hdecides
      cases hok.symm.trans h
  · left
    have hno : (∀ ss, ¬ ConsistsOf file ss) ∨ ∃ ss, ConsistsOf file ss ∧ ¬ Distinct ss := by
      by_contra hnot
      push Not at hnot
      obtain ⟨⟨ss, htokens⟩, hall⟩ := hnot
      exact hstatements ⟨ss, htokens, hall ss htokens⟩
    obtain ⟨e', herror, hkind⟩ := (malformed_iff file).mpr hno
    obtain rfl := Except.error.inj (h.symm.trans herror)
    exact hkind

/-- **Exactly the schema texts of their grammar are accepted**, with the attribute that their
    statements decide.  A text is malformed if it is not made of statements or defines an
    attribute twice, and inconsistent if its statements decide no attribute.  Nothing else can be
    wrong: no reference is unresolved, and of a decision attribute it can only be wrong that it is
    missing or continuous. -/
theorem parse_classified (file : SourceFile) :
    ((∃ e, parse file = .error e ∧ e.kind = .malformed) ↔
      (∀ ss, ¬ ConsistsOf file ss) ∨ ∃ ss, ConsistsOf file ss ∧ ¬ Distinct ss) ∧
    (∀ ss, ConsistsOf file ss → Distinct ss →
      ((∃ e, parse file = .error e ∧ e.kind = .inconsistent) ↔ Undecided ss) ∧
      (¬ Undecided ss → ∃ schema, parse file = .ok schema) ∧
      ∀ name, (∃ schema, parse file = .ok schema ∧ schema.decisionAttribute.name = name) ↔
        Decides ss name) ∧
    ∀ e, parse file = .error e → e.kind ≠ .unresolved ∧
      ∀ reason, e.fault = .names (.unusableDecision reason) →
        ∃ name, reason = .missingDecision name ∨ reason = .decisionNotEnumerated name := by
  refine ⟨malformed_iff file, ?_, ?_⟩
  · intro ss htokens hdistinct
    refine ⟨inconsistent_iff htokens hdistinct, ?_, accepted_iff htokens hdistinct⟩
    intro hnot
    rcases undecided_or_decides ss with hundecided | ⟨name, hdecides⟩
    · exact absurd hundecided hnot
    · obtain ⟨schema, hok, -⟩ := parse_of_decides htokens hdistinct hdecides
      exact ⟨schema, hok⟩
  · intro e herror
    rcases error_cases herror with hmalformed | ⟨l, rfl, hfault⟩
    · refine ⟨by simp [hmalformed], ?_⟩
      intro reason hreason
      rw [ParseError.kind, hreason] at hmalformed
      cases hmalformed
    · refine ⟨by simp [kind_of_ofDecision file hfault], ?_⟩
      intro reason hreason
      have hl : l.fault = .unusableDecision reason := DecisionModel.Fault.names.inj hreason
      rw [hl] at hfault
      cases hfault with
      | missing name => exact ⟨name, .inl rfl⟩
      | continuous name => exact ⟨name, .inr rfl⟩

/-- A group with its attribute defined right behind the dot. -/
def groupNames : SourceFile where
  name := "group.names"
  content := "decision.state:stop,play.\n"

/-- The token of a kind with the given characters. -/
def tokenOf (kind : TokenKind) (text : String) (start : Nat) : TokenOf kind :=
  ⟨.ofChars kind start text.toList, rfl⟩

def groupStatements : List Statement :=
  [.declaration (tokenOf .name "decision" 0) (tokenOf .dot "." 8),
    .definition (tokenOf .name "state" 9) (tokenOf .colon ":" 14) (tokenOf .name "stop" 15)
      [(tokenOf .comma "," 19, tokenOf .name "play" 20)] (tokenOf .dot "." 24)]

theorem parse_groupNames :
    ConsistsOf groupNames groupStatements ∧ Distinct groupStatements ∧
      Decides groupStatements "state" ∧
      (∃ schema, parse groupNames = .ok schema ∧ schema.decisionAttribute.name = "state") := by
  have htokens : ConsistsOf groupNames groupStatements := by
    unfold ConsistsOf
    decide
  have hdistinct : Distinct groupStatements := by decide
  have hdecides : Decides groupStatements "state" := by
    have hdefinitions : definitions groupStatements = [(⟨"state", ⟨9, 14⟩⟩, ["stop", "play"])] := by
      decide
    have hlast : (declarations groupStatements).getLast? = some (⟨"decision", ⟨0, 8⟩⟩, 9) := by
      decide
    have hmem : (⟨"state", ⟨9, 14⟩⟩, ["stop", "play"]) ∈ definitions groupStatements := by
      rw [hdefinitions]
      exact .head _
    exact .adjacent hlast (by decide) hmem rfl (by decide)
  obtain ⟨-, hstatements, -⟩ := parse_classified groupNames
  obtain ⟨-, -, hdecided⟩ := hstatements _ htokens hdistinct
  exact ⟨htokens, hdistinct, hdecides, (hdecided "state").mpr hdecides⟩

end DecisionModel.Names
