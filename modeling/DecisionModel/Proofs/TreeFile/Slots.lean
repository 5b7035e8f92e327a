import DecisionModel.Proofs.Evaluation.Slots
import DecisionModel.Proofs.TreeFile.WellFormed

/-!
# Reading takes slots over

Reading a tree never looks at slots but to copy them into branches.  Whatever is read over a
schema at other slots is therefore what is read over the schema, put at these slots: this holds
of each line, and so of the whole text.

Decisions then do not depend on the layout of records.
-/

namespace DecisionModel

namespace TreeFile

variable (slots : AttrId → Slot)

/-! ### What has been read, at other slots -/

/-- A branch without its node, at the given slots. -/
def openAtSlots (b : Branch Unit) : Branch Unit := b.atSlots slots id

def Frame.atSlots (f : Frame) : Frame where
  done := f.done.map (Branch.atSlots slots (Node.atSlots slots))
  current := openAtSlots slots f.current
  pending := f.pending.map (openAtSlots slots)

namespace State

/-- What has been read, with all attributes and branches at the given slots. -/
def atSlots : State → State
  | .header => .header
  | .node stack => .node (stack.map (Frame.atSlots slots))
  | .placeholder a forks span stack =>
    .placeholder (a.atSlots slots) forks span (stack.map (Frame.atSlots slots))
  | .subsets a missing sets stack =>
    .subsets (a.atSlots slots) missing sets (stack.map (Frame.atSlots slots))
  | .complete top => .complete (top.atSlots slots)

theorem plug_atSlots (stack : List Frame) (child : Node) :
    plug (child.atSlots slots) (stack.map (Frame.atSlots slots)) =
      (plug child stack).atSlots slots := by
  induction stack generalizing child with
  | nil => rfl
  | cons f stack ih =>
    have hdone : (f.atSlots slots).done ++
        [withChild (f.atSlots slots).current (child.atSlots slots)] =
        (f.done ++ [withChild f.current child]).map
          (Branch.atSlots slots (Node.atSlots slots)) := by
      rw [List.map_append]
      rfl
    rw [List.map_cons, plug, plug, hdone]
    rcases hpending : f.pending with _ | ⟨next, rest⟩
    · -- the test is complete, and its own branch waits for it further down the stack
      simp only [Frame.atSlots, hpending, List.map_nil]
      rw [← Node.atSlots_test, ih]
    · simp only [Frame.atSlots, hpending, List.map_cons, atSlots]

theorem descend_atSlots (branches : List (Branch Unit)) (stack : List Frame) :
    descend (branches.map (openAtSlots slots)) (stack.map (Frame.atSlots slots)) =
      (descend branches stack).atSlots slots := by
  cases branches with
  | nil => exact plug_atSlots slots stack (.test [])
  | cons next rest => rfl

end State

/-! ### Branches -/

theorem valueBranches_atSlots (a : Attribute) (count : Nat) :
    valueBranches (a.atSlots slots) count = (valueBranches a count).map (openAtSlots slots) := by
  rw [valueBranches, valueBranches, List.map_map]
  rfl

theorem thresholdBranches_atSlots (a : Attribute) (count : Nat) :
    thresholdBranches (a.atSlots slots) count =
      (thresholdBranches a count).map (openAtSlots slots) := by
  rw [thresholdBranches, thresholdBranches, List.map_replicate]
  rfl

theorem subsetBranches_atSlots (a : Attribute) (sets : List (List Int)) :
    subsetBranches (a.atSlots slots) sets = (subsetBranches a sets).map (openAtSlots slots) := by
  rw [subsetBranches, subsetBranches, List.map_map]
  rfl

/-! ### Records -/

variable (schema : Schema)

theorem Record.terminal_atSlots (r : Record) :
    r.terminal (schema.atSlots slots) = (r.terminal schema).map (Node.atSlots slots) := by
  unfold Record.terminal
  rcases r.value "class" with e | ⟨value, span⟩
  · rfl
  · simp only [ok_bind, Schema.decisionCode?_atSlots, Schema.decisionAttribute_atSlots]
    rcases schema.decisionCode? value with _ | code
    · rfl
    · rfl

theorem Record.tested_atSlots (r : Record) :
    r.tested (schema.atSlots slots) = (r.tested schema).map (·.atSlots slots) := by
  unfold Record.tested
  rcases r.value "att" with e | ⟨name, span⟩
  · rfl
  · simp only [ok_bind, Schema.attribute?_atSlots]
    rcases schema.attribute? name with _ | a
    · rfl
    · rfl

theorem Field.codes_atSlots (f : Field) (a : Attribute) : f.codes (a.atSlots slots) = f.codes a :=
  rfl

namespace State

theorem openSubsets_atSlots (r : Record) (a : Attribute) (forks : Nat) (stack : List Frame) :
    openSubsets r (a.atSlots slots) forks (stack.map (Frame.atSlots slots)) =
      (openSubsets r a forks stack).map (atSlots slots) := by
  unfold openSubsets
  split
  · rfl
  · split
    · rw [except_map_bind]
      apply bind_congr
      intro sets
      rw [subsetBranches_atSlots, descend_atSlots]
      rfl
    · rfl

theorem nodeRecord_atSlots (r : Record) (stack : List Frame) :
    nodeRecord (schema.atSlots slots) r (stack.map (Frame.atSlots slots)) =
      (nodeRecord schema r stack).map (atSlots slots) := by
  unfold nodeRecord
  rw [except_map_bind]
  apply bind_congr
  intro type
  cases type with
  | leaf =>
    simp only [Record.terminal_atSlots, except_map_bind, except_bind_map, plug_atSlots]
    rfl
  | values =>
    simp only [Record.tested_atSlots, except_map_bind, except_bind_map]
    rfl
  | threshold =>
    simp only [Record.tested_atSlots, except_map_bind, except_bind_map, thresholdBranches_atSlots,
      descend_atSlots]
    rfl
  | subsets =>
    simp only [Record.tested_atSlots, except_map_bind, except_bind_map, openSubsets_atSlots]

theorem subsetRecord_atSlots (r : Record) (a : Attribute) (missing : Nat) (sets : List (List Int))
    (stack : List Frame) :
    subsetRecord r (a.atSlots slots) missing sets (stack.map (Frame.atSlots slots)) =
      (subsetRecord r a missing sets stack).map (atSlots slots) := by
  simp only [subsetRecord, except_map_bind, Field.codes_atSlots]
  apply bind_congr
  intro field
  apply bind_congr
  intro codes
  split
  · rw [subsetBranches_atSlots, descend_atSlots]
    rfl
  · rfl

theorem afterPlaceholder_atSlots (a : Attribute) (forks : Nat) (span : Span)
    (stack : List Frame) :
    afterPlaceholder (a.atSlots slots) forks span (stack.map (Frame.atSlots slots)) =
      (afterPlaceholder a forks span stack).map (atSlots slots) := by
  unfold afterPlaceholder
  have hcount : (a.atSlots slots).valueCount = a.valueCount := rfl
  rw [hcount, valueBranches_atSlots, descend_atSlots]
  split
  · rfl
  · rfl

theorem record_atSlots (s : State) (r : Record) :
    (s.atSlots slots).record (schema.atSlots slots) r =
      (s.record schema r).map (atSlots slots) := by
  cases s with
  | header =>
    simp only [atSlots, record]
    rcases isHeader r with e | header
    · rfl
    · cases header with
      | true => rfl
      | false => exact nodeRecord_atSlots slots schema r []
  | node stack => exact nodeRecord_atSlots slots schema r stack
  | placeholder a forks span stack => rfl
  | subsets a missing sets stack => exact subsetRecord_atSlots slots r a missing sets stack
  | complete top => rfl

/-! ### Texts -/

/-- A line is read in the same way at all slots. -/
theorem step_atSlots (s : State) (l : Line) :
    (s.atSlots slots).step (schema.atSlots slots) l = (s.step schema l).map (atSlots slots) := by
  rcases s.placeholder_or_ne with ⟨a, forks, span, stack, rfl⟩ | hs
  · simp only [atSlots, step]
    rcases checkPlaceholder l with e | _
    · rfl
    · exact afterPlaceholder_atSlots slots a forks span stack
  · have hs' : ∀ a forks span stack, s.atSlots slots ≠ .placeholder a forks span stack := by
      intro a forks span stack h
      cases s with
      | placeholder a forks span stack => exact hs a forks span stack rfl
      | _ => cases h
    rw [step_eq_of_ne_placeholder hs, step_eq_of_ne_placeholder hs']
    split
    · rfl
    · rcases Record.parse l with e | r
      · rfl
      · exact record_atSlots slots schema s r

theorem finish_atSlots (s : State) (stop : Span) :
    (s.atSlots slots).finish stop = (s.finish stop).map (Node.atSlots slots) := by
  cases s <;> rfl

end State

/-- **Text is read in the same way at all slots.** -/
theorem parse_atSlots (file : SourceFile) :
    parse (schema.atSlots slots) file = (parse schema file).map (DecisionTree.atSlots slots) := by
  have hrun : (Line.ofText file.content.toList).foldlM (State.step (schema.atSlots slots)) .header =
      ((Line.ofText file.content.toList).foldlM (State.step schema) .header).map
        (State.atSlots slots) :=
    foldlM_map_state (State.step_atSlots slots schema) _ .header
  have hname : (schema.atSlots slots).decisionAttribute.name = schema.decisionAttribute.name := by
    rw [Schema.decisionAttribute_atSlots, Attribute.atSlots_name]
  have htype : (schema.atSlots slots).decisionAttribute.valueType =
      schema.decisionAttribute.valueType := by
    rw [Schema.decisionAttribute_atSlots]
    rfl
  unfold parse
  rw [hrun]
  rcases (Line.ofText file.content.toList).foldlM (State.step schema) .header with e | s
  · rfl
  · simp only [except_bind_map, ok_bind, State.finish_atSlots]
    rcases s.finish file.endSpan with e | top
    · rfl
    · simp only [DecisionTree.withTop, DecisionTree.forSchema, hname, htype]
      rfl

/-! ### Layouts of records -/

/-- The two bound schemas have the same attributes, so that an attribute is at a slot in both or
    in none. -/
theorem sameAt_slotOf {origin schema schema' : Schema} (hwf : origin.WellFormed)
    (bound : origin.Rebound schema) (bound' : origin.Rebound schema')
    {record record' : DecisionModel.Record}
    (same : ∀ a ∈ origin.attributes, (schema.slotOf a.id).isBound = true ∧
      (schema'.slotOf a.id).isBound = true ∧
      record (schema.slotOf a.id) = record' (schema'.slotOf a.id)) (attr : AttrId) :
    SameAt schema.slotOf schema'.slotOf record record' attr := by
  rcases hattr : origin.attributeById? attr with _ | a
  · exact .inl ⟨bound.slotOf_of_unknown hattr, bound'.slotOf_of_unknown hattr⟩
  · right
    have hid : a.id = attr := by
      rw [hwf.attributes.id_eq attr.index a hattr]
    rw [← hid]
    exact same a (List.mem_of_getElem? hattr)

/-- **Decisions do not depend on the layout of records.**  If a schema is bound in two ways,
    each with a slot for every attribute, then any text is refused in the same way over both, or
    read as trees that differ in their slots alone.  Where records hold the same values of all
    attributes, each at its slot of the one schema or of the other, the trees come to the same. -/
theorem evaluate_of_layouts {origin schema schema' : Schema}
    (source : origin.Built ∨ ∃ names, Names.parse names = .ok origin)
    (bound : origin.Rebound schema) (bound' : origin.Rebound schema')
    (slots : ∀ a ∈ origin.attributes, (schema.slotOf a.id).isBound = true)
    (slots' : ∀ a ∈ origin.attributes, (schema'.slotOf a.id).isBound = true)
    (file : SourceFile) :
    (∃ e, parse schema file = .error e ∧ parse schema' file = .error e) ∨
      ∃ tree, parse schema file = .ok tree ∧
        parse schema' file = .ok (tree.atSlots schema'.slotOf) ∧
        ∀ (options : EvalOptions) (record record' : DecisionModel.Record),
          (∀ a ∈ origin.attributes,
            record (schema.slotOf a.id) = record' (schema'.slotOf a.id)) →
          tree.evaluate options record =
            (tree.atSlots schema'.slotOf).evaluate options record' := by
  have hwf : origin.WellFormed := Names.wellFormed_of_source source
  have hparse : parse schema file = (parse origin file).map (·.atSlots schema.slotOf) := by
    conv_lhs => rw [bound.eq_atSlots hwf]
    exact parse_atSlots _ origin file
  have hparse' : parse schema' file = (parse origin file).map (·.atSlots schema'.slotOf) := by
    conv_lhs => rw [bound'.eq_atSlots hwf]
    exact parse_atSlots _ origin file
  rw [hparse, hparse']
  rcases parse origin file with e | tree
  · exact .inl ⟨e, rfl, rfl⟩
  · right
    refine ⟨tree.atSlots schema.slotOf, rfl, ?_, ?_⟩
    · rw [DecisionTree.atSlots_atSlots]
      rfl
    · intro options record record' hvalues
      rw [DecisionTree.atSlots_atSlots]
      apply DecisionTree.evaluate_atSlots
      apply sameAt_slotOf hwf bound bound'
      intro a ha
      exact ⟨slots a ha, slots' a ha, hvalues a ha⟩

/-- The tree of policies takes over whatever slots its schema was bound to. -/
theorem parse_policyTree {schema : Schema} (bound : policySchema.Rebound schema) :
    parse schema policyTree = .ok (policy (schema.slotOf ⟨1⟩) (schema.slotOf ⟨2⟩)) := by
  have hwf : policySchema.WellFormed := Names.wellFormed_of_source (.inr ⟨_, parse_policyNames⟩)
  have hunbound : parse policySchema policyTree = .ok (policy .unbound .unbound) := by cbv
  conv_lhs => rw [bound.eq_atSlots hwf, parse_atSlots, hunbound]
  rfl

/-- The schema of policies with two attributes at one slot. -/
def sharedSlots : Schema := policySchema.bindById.bindSlot "level" (.index 2)

theorem evaluate_policy_of_layouts :
    Names.parse policyNames = .ok policySchema ∧
      policySchema.Rebound policySchema.bindById ∧ policySchema.Rebound sharedSlots ∧
      parse policySchema.bindById policyTree = .ok (policy (.index 1) (.index 2)) ∧
      parse sharedSlots policyTree = .ok (policy (.index 2) (.index 2)) ∧
      (policy (.index 1) (.index 2)).evaluate ⟨.strict⟩
          (.dense [.integer 7, .integer 1, .integer 1]) =
        (policy (.index 2) (.index 2)).evaluate ⟨.strict⟩
          (.sparse [some (.integer 7), none, some (.integer 1)]) := by
  have hbyId : policySchema.Rebound policySchema.bindById := .bindById .refl
  have hshared : policySchema.Rebound sharedSlots := .bindSlot _ _ hbyId
  have htree : parse policySchema.bindById policyTree = .ok (policy (.index 1) (.index 2)) :=
    parse_policyTree hbyId
  have hsharedTree : parse sharedSlots policyTree = .ok (policy (.index 2) (.index 2)) :=
    parse_policyTree hshared
  refine ⟨parse_policyNames, hbyId, hshared, htree, hsharedTree, ?_⟩
  rcases evaluate_of_layouts (.inr ⟨policyNames, parse_policyNames⟩) hbyId hshared (by decide)
    (by decide) policyTree with ⟨e, herror, -⟩ | ⟨tree, hok, hok', hevaluate⟩
  · rw [htree] at herror
    cases herror
  · obtain rfl := Except.ok.inj (htree.symm.trans hok)
    rw [← Except.ok.inj (hsharedTree.symm.trans hok')] at hevaluate
    exact hevaluate ⟨.strict⟩ _ _ (by decide)

end TreeFile

end DecisionModel
