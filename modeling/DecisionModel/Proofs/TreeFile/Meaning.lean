import DecisionModel.Proofs.Evaluation.Safety
import DecisionModel.Proofs.TreeFile.RoundTrip

/-!
# What tree text means

An outline can be read as a decision procedure by names alone: a record holds a value of an
attribute, and a test goes on with the child for that value.  The tree that is read from any
text of the outline decides every record in just this way.
-/

namespace DecisionModel

/-- The code that a record holds for the attribute. -/
def Attribute.held? (a : Attribute) (record : Record) : Option Int :=
  (record a.slot).bind Value.asInteger?

namespace TreeFile

namespace Outline

mutual

/-- The code that an outline decides for a record. -/
def read? (s : Schema) (record : DecisionModel.Record) : Outline → Option Int
  | .leaf decision => s.decisionCode? decision
  | .values attr children => do
    let a ← s.attribute? attr
    let code ← a.held? record
    let i ← a.sortedValues.findIdx? fun value => value.2 == code
    readAt? s record i children
  | .threshold _ _ => none
  | .subsets attr sets children => do
    let a ← s.attribute? attr
    let code ← a.held? record
    let value ← a.nameOf? code
    let i ← sets.findIdx? fun values => values.contains value
    readAt? s record i children
termination_by structural o => o

/-- The code that the child at position `i` decides. -/
def readAt? (s : Schema) (record : DecisionModel.Record) (i : Nat) : List Outline → Option Int
  | [] => none
  | child :: rest =>
    match i with
    | 0 => child.read? s record
    | j + 1 => readAt? s record j rest
termination_by structural os => os

end

end Outline

/-- The outcome of a walk that ends in a code, or nowhere. -/
def outcome : Option Int → Except EvalError Value
  | some code => .ok (.integer code)
  | none => .error .noMatch

/-! ### Codes of sets -/

theorem contains_codes_eq {a : Attribute} (ha : a.WellFormed) (hdense : a.Dense) (code : Int)
    {values : List String} {codes : List Int} (h : values.mapM a.codeOf? = some codes) :
    codes.contains code = (a.nameOf? code).any values.contains := by
  rw [Bool.eq_iff_iff, List.contains_iff_mem, mem_mapM_eq_some_iff h, Option.any_eq_true]
  constructor
  · rintro ⟨value, hmem, hcode⟩
    exact ⟨value, (hdense.nameOf?_eq_some_iff ha).mpr hcode, by simpa using hmem⟩
  · rintro ⟨value, hname, hmem⟩
    exact ⟨value, by simpa using hmem, (hdense.nameOf?_eq_some_iff ha).mp hname⟩

/-- The first set with a code is the first one with the name of that code. -/
theorem findIdx?_codes_eq {a : Attribute} (ha : a.WellFormed) (hdense : a.Dense) (code : Int)
    {sets : List (List String)} {codes : List (List Int)}
    (h : sets.mapM (fun values => values.mapM a.codeOf?) = some codes) :
    codes.findIdx? (fun set => set.contains code) =
      (a.nameOf? code).bind fun value => sets.findIdx? fun values => values.contains value := by
  have hnames : codes.findIdx? (fun set => set.contains code) =
      sets.findIdx? fun values => (a.nameOf? code).any values.contains := by
    induction sets generalizing codes with
    | nil =>
      rw [List.mapM_nil] at h
      cases h
      rfl
    | cons values rest ih =>
      obtain ⟨set, more, hset, hmore, rfl⟩ := mapM_cons_eq_some h
      rw [List.findIdx?_cons, List.findIdx?_cons, ih hmore, contains_codes_eq ha hdense code hset]
  rw [hnames]
  cases a.nameOf? code with
  | none => simp
  | some value => rfl

/-! ### Children -/

variable {schema : Schema} {options : EvalOptions} {record : DecisionModel.Record}

/-- The walk from the node decides what the outline says. -/
def Agrees (schema : Schema) (options : EvalOptions) (record : DecisionModel.Record) (o : Outline)
    (n : Node) : Prop :=
  n.decide options record = outcome (o.read? schema record)

theorem forall₂_agrees {children : List Outline} {nodes : List Node}
    (h : ∀ child ∈ children, ∀ n, child.elaborate? schema = some n →
      Agrees schema options record child n)
    (hnodes : Outline.elaborateAll? schema children = some nodes) :
    List.Forall₂ (Agrees schema options record) children nodes := by
  induction children generalizing nodes with
  | nil =>
    cases hnodes
    exact .nil
  | cons child rest ih =>
    rw [Outline.elaborateAll?] at hnodes
    obtain ⟨n, hn, hnodes⟩ := Option.bind_eq_some_iff.mp hnodes
    obtain ⟨more, hmore, hnodes⟩ := Option.bind_eq_some_iff.mp hnodes
    cases hnodes
    exact .cons (h child (by simp) n hn) (ih (fun c hc => h c (by simp [hc])) hmore)

theorem outcome_readAt? {children : List Outline} {nodes : List Node}
    (h : List.Forall₂ (Agrees schema options record) children nodes) (i : Nat) :
    outcome (Outline.readAt? schema record i children) =
      match nodes[i]? with
      | some n => n.decide options record
      | none => .error .noMatch := by
  induction h generalizing i with
  | nil => rw [Outline.readAt?]; rfl
  | @cons child n rest nodes hn _ ih =>
    cases i with
    | zero =>
      rw [Outline.readAt?]
      exact hn.symm
    | succ j =>
      rw [Outline.readAt?]
      exact ih j

/-- At tests on codes the first one that the held code passes decides which child is read. -/
theorem decideBranches_of_codes {a : Attribute} (hslot : a.slot.isBound = true)
    (hheld : record a.slot = none ∨ ∃ code, record a.slot = some (.integer code)) {α : Type}
    {test : α → Test} {holds : Int → α → Bool}
    (hpasses : ∀ code x, (test x).passes options (.integer code) = holds code x) (xs : List α)
    {children : List Outline} {nodes : List Node}
    (h : List.Forall₂ (Agrees schema options record) children nodes) :
    decideBranches options record
        (List.zipWith (fun x child => a.branch (some (test x)) child) xs nodes) =
      outcome ((a.held? record).bind fun code => (xs.findIdx? (holds code)).bind fun i =>
        Outline.readAt? schema record i children) := by
  rcases hheld with hmissing | ⟨code, hcode⟩
  · have hnever : xs.findIdx? (fun _ => false) = none := by simp
    have hnone : a.held? record = none := by simp [Attribute.held?, hmissing]
    rw [decideBranches_zipWith (fun _ => false) (fun _ _ => rfl)
      (fun x child => verdict_branch_of_missing hslot hmissing (some (test x)) child), hnever, hnone]
    rfl
  · have hsome : a.held? record = some code := by simp [Attribute.held?, hcode, Value.asInteger?]
    have hverdict : ∀ (x : α) (child : Node), (a.branch (some (test x)) child).verdict options record =
        if holds code x then .take else .passOver := by
      intro x child
      rw [verdict_branch_of_held hslot hcode, hpasses]
    rw [decideBranches_zipWith (holds code) (fun _ _ => rfl) hverdict, hsome, Option.bind_some]
    cases xs.findIdx? (holds code) with
    | none => rfl
    | some i => exact (outcome_readAt? h i).symm

/-! ### Nodes -/

/-- What the record holds for enumerated attributes are integers. -/
def HoldsCodes (schema : Schema) (record : DecisionModel.Record) : Prop :=
  ∀ a ∈ schema.attributes, a.isEnumerated = true →
    record a.slot = none ∨ ∃ code, record a.slot = some (.integer code)

/-- **The node that an outline stands for decides what the outline says.** -/
theorem agrees_of_elaborate? (hwf : schema.WellFormed) (hdense : schema.Dense)
    (hslots : ∀ a ∈ schema.attributes, a.slot.isBound = true) (hholds : HoldsCodes schema record)
    {o : Outline} (h : o.Fits schema) :
    ∀ n, o.elaborate? schema = some n → Agrees schema options record o n := by
  induction h with
  | @leaf decision code hcode =>
    intro n hn
    rw [Outline.elaborate?, hcode] at hn
    cases hn
    rw [Agrees, Outline.read?, hcode]
    rfl
  | @values attr a children ha _ _ _ ih =>
    intro n hn
    have hmem : a ∈ schema.attributes := List.mem_of_find?_eq_some ha
    rw [Outline.elaborate?, ha, Option.bind_eq_bind, Option.bind_some] at hn
    obtain ⟨nodes, hnodes, hn⟩ := Option.bind_eq_some_iff.mp hn
    cases hn
    have hpasses : ∀ (code : Int) (value : String × Int),
        (⟨.eq, .integer value.2⟩ : Test).passes options (.integer code) = (value.2 == code) := by
      intro code value
      rw [Bool.eq_iff_iff, (Test.Codes.eq value.2).passes_integer options code, List.mem_singleton,
        beq_iff_eq]
      exact eq_comm
    rw [Agrees, Outline.read?, ha, Option.bind_eq_bind, Option.bind_some]
    by_cases henumerated : a.isEnumerated = true
    · exact decideBranches_of_codes (hslots a hmem) (hholds a hmem henumerated) hpasses
        a.sortedValues (forall₂_agrees ih hnodes)
    · -- a continuous attribute has no values, and so the test no branches
      have hnone : a.values = [] := by
        by_contra hne
        exact henumerated ((hwf.attributes.each a hmem).enumerated_iff.mpr hne)
      have hsorted : a.sortedValues = [] := by simp [Attribute.sortedValues, hnone]
      rw [hsorted]
      cases a.held? record <;> rfl
  | @threshold attr a children ha _ _ _ ih =>
    intro n hn
    rw [Outline.elaborate?, ha, Option.bind_eq_bind, Option.bind_some] at hn
    obtain ⟨nodes, hnodes, hn⟩ := Option.bind_eq_some_iff.mp hn
    cases hn
    rw [Agrees, Outline.read?]
    refine decideBranches_of_passOver ?_
    intro b hb
    obtain ⟨child, -, rfl⟩ := List.mem_map.mp hb
    rfl
  | @subsets attr a sets children ha hsets hlow _ hne hvalues _ ih =>
    intro n hn
    have hmem : a ∈ schema.attributes := List.mem_of_find?_eq_some ha
    have hattr : a.WellFormed := hwf.attributes.each a hmem
    rw [Outline.elaborate?, ha, Option.bind_eq_bind, Option.bind_some] at hn
    obtain ⟨codes, hcodes, hn⟩ := Option.bind_eq_some_iff.mp hn
    obtain ⟨nodes, hnodes, hn⟩ := Option.bind_eq_some_iff.mp hn
    cases hn
    have henumerated : a.isEnumerated = true := by
      obtain ⟨values, rest, rfl⟩ : ∃ values rest, sets = values :: rest :=
        List.exists_cons_of_length_pos (by omega)
      obtain ⟨value, more, rfl⟩ := List.exists_cons_of_ne_nil (hne values (by simp))
      obtain ⟨code, hcode⟩ := hvalues _ List.mem_cons_self value List.mem_cons_self
      exact hattr.enumerated_iff.mpr (List.ne_nil_of_mem (mem_of_lookup_eq_some hcode))
    have hpasses : ∀ (code : Int) (set : List Int),
        (subsetTest set).passes options (.integer code) = set.contains code := by
      intro code set
      rw [Bool.eq_iff_iff, subsetTest_passes_integer, List.contains_iff_mem]
    have hdecide := decideBranches_of_codes (hslots a hmem) (hholds a hmem henumerated) hpasses
      codes (forall₂_agrees ih hnodes)
    rw [Agrees, Outline.read?, ha]
    refine hdecide.trans ?_
    simp only [findIdx?_codes_eq hattr (hdense a hmem) _ hcodes, Option.bind_assoc]
    rfl

/-- **Tree text means what its outline says.**  Over a schema that was read, with a slot for
    every attribute, the text of an outline that fits is read as a tree.  Whatever the layout
    and the options, the tree decides each record that holds integers for the enumerated
    attributes just as the outline does by names. -/
theorem evaluate_of_render {names : SourceFile} {origin schema : Schema}
    (read : Names.parse names = .ok origin) (bound : origin.Rebound schema)
    (slots : ∀ a ∈ schema.attributes, a.slot.isBound = true) {o : Outline} (fits : o.Fits schema)
    (layout : Layout) (name : String) :
    ∃ tree, parse schema ⟨name, o.render layout⟩ = .ok tree ∧
      ∀ (options : EvalOptions) (record : DecisionModel.Record), HoldsCodes schema record →
        tree.evaluate options record =
          match o.read? schema record with
          | some code => .ok ⟨.integer code, .integer⟩
          | none => .error .noMatch := by
  have hwf : schema.WellFormed := bound.wellFormed (Names.built_of_parse read).wellFormed
  have hdense : schema.Dense := bound.dense (Names.dense_of_parse read)
  obtain ⟨top, htop, hparse⟩ := parse_render (allNames_onOneLine_of_parse read bound) fits
  refine ⟨.withTop schema top, hparse layout name, ?_⟩
  intro options record hholds
  have hagrees : top.decide options record = outcome (o.read? schema record) :=
    agrees_of_elaborate? hwf hdense slots hholds fits top htop
  have hevaluate : (DecisionTree.withTop schema top).evaluate options record =
      (top.decide options record).map fun v => ⟨v, schema.decisionAttribute.valueType⟩ := rfl
  rw [hevaluate, hagrees, hwf.decisionType]
  cases o.read? schema record <;> rfl

theorem isBlank_tab : ∀ c ∈ ['\t'], Text.isBlank c = true ∧ c ≠ '\n' := by
  have htab : Text.isBlank '\t' = true := by cbv
  simpa using htab

/-- A layout with sets on the records of their tests, and without a line end at the end. -/
def compactLayout : Layout where
  header := [.entries, .blank ⟨['\t'], isBlank_tab⟩, .id ⟨"a \"policy\"", by decide⟩]
  style _ := ⟨[.empty], .leaf ⟨"unknown", by decide⟩, true, fun _ => []⟩
  trailer := []
  lineEnd := .carriageReturn
  closed := false

/-- A record with the value `mid` of `count`. -/
def midRecord : DecisionModel.Record := .dense [.integer 0, .text "high", .integer 1]

theorem evaluate_policyOutline :
    Names.parse policyNames = .ok policySchema ∧ policySchema.Rebound policySchema.bindById ∧
      (∀ a ∈ policySchema.bindById.attributes, a.slot.isBound = true) ∧
      policyOutline.Fits policySchema.bindById ∧ HoldsCodes policySchema.bindById midRecord ∧
      policyOutline.read? policySchema.bindById midRecord = some 2 ∧
      ∃ tree, parse policySchema.bindById ⟨"policy.tree", policyOutline.render compactLayout⟩ =
          .ok tree ∧
        tree.evaluate ⟨.legacy⟩ midRecord = .ok ⟨.integer 2, .integer⟩ := by
  have hbound : policySchema.Rebound policySchema.bindById := .bindById .refl
  have hholds : HoldsCodes policySchema.bindById midRecord := by
    simp [HoldsCodes, policySchema, Schema.bindById, Schema.mapAttributes, Attribute.isEnumerated,
      midRecord, DecisionModel.Record.dense]
  have hread : policyOutline.read? policySchema.bindById midRecord = some 2 := by cbv
  obtain ⟨tree, htree, hevaluate⟩ := evaluate_of_render parse_policyNames hbound
    policySchema.isBound_bindById policyOutline_fits compactLayout "policy.tree"
  refine ⟨parse_policyNames, hbound, policySchema.isBound_bindById, policyOutline_fits, hholds,
    hread, tree, htree, ?_⟩
  rw [hevaluate ⟨.legacy⟩ midRecord hholds, hread]

end TreeFile

end DecisionModel
