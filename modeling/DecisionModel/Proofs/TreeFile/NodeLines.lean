import DecisionModel.Proofs.TreeFile.Reading

/-!
# Lines that open a node

The record of a decision makes a node.  The record of a test, with its placeholder or its
sets behind it, opens a test with all its branches, whose nodes come next.
-/

namespace DecisionModel.TreeFile

open State

/-! ### States that expect a node -/

/-- The node that comes next belongs onto the stack. -/
inductive Expects : State → List Frame → Prop
  | header : Expects .header []
  | node (stack : List Frame) : Expects (.node stack) stack

variable {schema : Schema} {start : State} {stack : List Frame}

theorem Expects.ne_placeholder (h : Expects start stack) :
    ∀ a forks span stack, start ≠ .placeholder a forks span stack := by
  intro a forks span stack' hs
  cases h <;> cases hs

theorem Expects.record (h : Expects start stack) {r : Record} {fields : List Content}
    (hr : r.fields.map Field.content = fields) (htype : (fields.find? (·.1 == "type")).isSome) :
    start.record schema r = nodeRecord schema r stack := by
  cases h with
  | header =>
    have hfield : (r.field? "type").isSome = true := by rw [Record.isSome_field? hr, htype]
    simp only [State.record, isHeader, hfield, if_true, bind, Except.bind, Bool.false_eq_true,
      if_false]
  | node => rfl

/-! ### Decisions and thresholds -/

theorem reaches_leaf (h : Expects start stack) {decision : String} (hline : OnOneLine decision)
    {code : Int} (hcode : schema.decisionCode? decision = some code) :
    Reaches schema [recordText (leafFields decision)] start
      (plug (.terminal (.integer code)) stack) := by
  refine reaches_record h.ne_placeholder (writable_leafFields hline) (by simp [leafFields]) ?_
  intro r hr
  rw [h.record hr rfl, record_leafFields hr hcode]

theorem reaches_threshold (h : Expects start stack) {attr : String} (hline : OnOneLine attr)
    {a : Attribute} (ha : schema.attribute? attr = some a) {forks : Nat} (hlow : 1 ≤ forks)
    (hhigh : forks ≤ 100) :
    Reaches schema [recordText (testFields "2" attr forks)] start
      (descend (thresholdBranches a forks) stack) := by
  refine reaches_record h.ne_placeholder (writable_testFields (by decide) hline forks)
    (by simp [testFields]) ?_
  intro r hr
  rw [← List.append_nil (testFields _ _ _)] at hr
  rw [h.record hr rfl, nodeRecord_threshold hr ha hlow hhigh]

/-! ### Values and placeholders -/

theorem Placeholder.lineFeed_notMem (p : Placeholder) : '\n' ∉ p.text := by
  cases p with
  | blank line => exact line.lineFeed_notMem
  | leaf decision => exact lineFeed_notMem_recordText (writable_leafFields decision.property)

theorem checkPlaceholder_of_text {p : Placeholder} {l : Line} (hl : l.text = Line.trim p.text) :
    checkPlaceholder l = .ok () := by
  cases p with
  | blank line => rw [checkPlaceholder, if_pos (BlankLine.isBlank hl)]
  | leaf decision =>
    obtain ⟨hblank, r, hr, hcontent⟩ := exists_parse_of_recordText
      (writable_leafFields decision.property) (by simp [leafFields]) hl
    obtain ⟨span, htype⟩ := Record.value_eq_ok hcontent "type" rfl rfl
    have hleaf : r.nodeType = .ok .leaf := by
      simp only [Record.nodeType, htype, bind, Except.bind]
    simp only [checkPlaceholder, hblank, hr, hleaf, bind, Except.bind, Bool.false_eq_true, if_false,
      if_true]

/-- The record of a test on values and its placeholder. -/
theorem reaches_values (h : Expects start stack) {attr : String} (hline : OnOneLine attr)
    {a : Attribute} (ha : schema.attribute? attr = some a) {count : Nat} (hhigh : count ≤ 99)
    (hcount : count ≤ a.valueCount) (p : Placeholder) :
    Reaches schema [recordText (testFields "1" attr (count + 1)), p.text] start
      (descend (valueBranches a count) stack) where
  on_lines := by
    have htest : '\n' ∉ recordText (testFields "1" attr (count + 1)) :=
      lineFeed_notMem_recordText (writable_testFields (by decide) hline (count + 1))
    simpa using ⟨htest, p.lineFeed_notMem⟩
  run := by
    intro ls hls
    obtain ⟨l, m, rfl, hl, hm⟩ : ∃ l m, ls = [l, m] ∧
        l.text = Line.trim (recordText (testFields "1" attr (count + 1))) ∧
        m.text = Line.trim p.text := by
      obtain ⟨l, rest, rfl, hl, hrest⟩ := List.map_eq_cons_iff.mp hls
      obtain ⟨m, rfl, hm⟩ := List.map_eq_singleton_iff.mp hrest
      exact ⟨l, m, rfl, hl, hm⟩
    obtain ⟨hblank, r, hr, hcontent⟩ := exists_parse_of_recordText
      (writable_testFields (by decide) hline (count + 1)) (by simp [testFields]) hl
    rw [← List.append_nil (testFields _ _ _)] at hcontent
    obtain ⟨span, hrecord⟩ := nodeRecord_values hcontent ha (by omega) (by omega) stack
    have hfirst : start.step schema l = .ok (.placeholder a (count + 1) span stack) := by
      rw [step_eq_of_ne_placeholder h.ne_placeholder, hblank, hr]
      exact (h.record hcontent rfl).trans hrecord
    have hsecond : (State.placeholder a (count + 1) span stack).step schema m =
        .ok (descend (valueBranches a count) stack) := by
      have hroom : ¬ a.valueCount < count := by omega
      simp only [State.step, checkPlaceholder_of_text hm, bind, Except.bind, afterPlaceholder,
        Nat.add_sub_cancel, hroom, if_false]
    rw [foldlM_cons_ok hfirst, foldlM_cons_ok hsecond]
    rfl

/-! ### Sets -/

theorem writable_setField {values : List String} (hne : values ≠ [])
    (hlines : ∀ value ∈ values, OnOneLine value) : Writable (setField values) where
  name := show isFieldName "elts" = true by decide
  nonempty := hne
  no_lineFeed := hlines

/-- Lines of sets fill a test that still lacks them. -/
theorem reaches_setLines {a : Attribute} {sets : List (List String)} {codes : List (List Int)}
    (hne : ∀ values ∈ sets, values ≠ []) (hlines : ∀ values ∈ sets, ∀ v ∈ values, OnOneLine v)
    (hcodes : sets.mapM (fun values => values.mapM a.codeOf?) = some codes) (hsets : sets ≠ [])
    (before : Nat → List BlankLine) (i : Nat) (done : List (List Int)) :
    Reaches schema (setLines before i sets) (.subsets a sets.length done stack)
      (descend (subsetBranches a (done ++ codes)) stack) := by
  induction sets generalizing codes i done with
  | nil => exact absurd rfl hsets
  | cons values rest ih =>
    obtain ⟨set, more, hset, hmore, rfl⟩ := mapM_cons_eq_some hcodes
    have hwritable : ∀ f ∈ [setField values], Writable f := by
      simpa using writable_setField (hne values (by simp)) (hlines values (by simp))
    have hblanks : Reaches schema ((before i).map Subtype.val)
        (.subsets a (values :: rest).length done stack)
        (.subsets a (values :: rest).length done stack) :=
      reaches_blanks (by simp) (before i)
    have hrecord : ∀ r : Record, r.fields.map Field.content = [setField values] →
        (State.subsets a (values :: rest).length done stack).record schema r =
          if rest = [] then .ok (descend (subsetBranches a (done ++ [set])) stack)
          else .ok (.subsets a rest.length (done ++ [set]) stack) := by
      intro r hr
      obtain ⟨field, hfield, hcontent⟩ := Record.required_eq_ok hr "elts" rfl
      have hfieldCodes : field.codes a = .ok set := codes_eq_ok (by rw [hcontent]; exact hset)
      simp only [State.record, subsetRecord, hfield, hfieldCodes, bind, Except.bind]
      cases rest <;> simp
    by_cases hlast : rest = []
    · subst hlast
      rw [List.mapM_nil] at hmore
      cases hmore
      refine hblanks.append (reaches_record (by simp) hwritable (by simp) ?_)
      intro r hr
      rw [hrecord r hr, if_pos rfl]
    · have hrest : Reaches schema (setLines before (i + 1) rest)
          (.subsets a rest.length (done ++ [set]) stack)
          (descend (subsetBranches a (done ++ [set] ++ more)) stack) :=
        ih (fun vs hvs => hne vs (by simp [hvs])) (fun vs hvs => hlines vs (by simp [hvs])) hmore
          hlast (i + 1) (done ++ [set])
      rw [List.append_assoc, List.singleton_append] at hrest
      have hfirst : Reaches schema [recordText [setField values]]
          (.subsets a (values :: rest).length done stack)
          (.subsets a rest.length (done ++ [set]) stack) := by
        refine reaches_record (by simp) hwritable (by simp) ?_
        intro r hr
        rw [hrecord r hr, if_neg hlast]
      exact hblanks.append (hfirst.append hrest)

/-- The record of a test on sets, with the sets on it or behind it. -/
theorem reaches_subsetLines (h : Expects start stack) {attr : String} (hline : OnOneLine attr)
    {a : Attribute} (ha : schema.attribute? attr = some a) {sets : List (List String)}
    {codes : List (List Int)} (hlow : 1 ≤ sets.length) (hhigh : sets.length ≤ 100)
    (hne : ∀ values ∈ sets, values ≠ []) (hlines : ∀ values ∈ sets, ∀ v ∈ values, OnOneLine v)
    (hcodes : sets.mapM (fun values => values.mapM a.codeOf?) = some codes) (style : Style) :
    Reaches schema (subsetLines style attr sets) start
      (descend (subsetBranches a codes) stack) := by
  have hsets : sets ≠ [] := List.ne_nil_of_length_pos hlow
  have htest : ∀ f ∈ testFields "3" attr sets.length, Writable f :=
    writable_testFields (by decide) hline sets.length
  unfold subsetLines
  dsimp only
  split
  · have hfields : ∀ f ∈ testFields "3" attr sets.length ++ sets.map setField, Writable f := by
      intro f hf
      rcases List.mem_append.mp hf with hleft | hright
      · exact htest f hleft
      · obtain ⟨values, hvalues, rfl⟩ := List.mem_map.mp hright
        exact writable_setField (hne values hvalues) (hlines values hvalues)
    refine reaches_record h.ne_placeholder hfields (by simp [testFields]) ?_
    intro r hr
    rw [h.record hr rfl, nodeRecord_subsets hr ha hlow hhigh,
      openSubsets_inline hr hsets hcodes]
  · have hrecord : Reaches schema [recordText (testFields "3" attr sets.length)] start
        (.subsets a sets.length [] stack) := by
      refine reaches_record h.ne_placeholder htest (by simp [testFields]) ?_
      intro r hr
      have hr' := hr
      rw [← List.append_nil (testFields _ _ _)] at hr'
      rw [h.record hr rfl, nodeRecord_subsets hr' ha hlow hhigh, openSubsets_following hr]
    exact hrecord.append (reaches_setLines hne hlines hcodes hsets style.beforeSet 0 [])

end DecisionModel.TreeFile
