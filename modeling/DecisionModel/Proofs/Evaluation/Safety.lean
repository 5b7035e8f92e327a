import DecisionModel.Proofs.Config.Bindings
import DecisionModel.Proofs.Evaluation.Walk
import DecisionModel.Proofs.TreeFile.WellFormed

/-!
# Loaded models are evaluated safely

The walk through a well-formed tree ends at a terminal, where no branch matches, or at a
tested branch whose attribute has no slot.  A loaded tree is well-formed, so its decisions
have names, and only attributes that were never bound can stop the walk.
-/

namespace DecisionModel

/-- Some branch of the node, or of one behind it, tests the attribute. -/
inductive Node.Tests (attr : AttrId) : Node → Prop
  | here {branches : List (Branch Node)} {b : Branch Node} : b ∈ branches → b.attr = attr →
      b.test.isSome = true → Tests attr (.test branches)
  | behind {branches : List (Branch Node)} {b : Branch Node} : b ∈ branches → Tests attr b.child →
      Tests attr (.test branches)

/-! ### Well-formed nodes -/

/-- Every branch of a well-formed node is on an attribute of the schema. -/
theorem Node.WellFormed.exists_on {s : Schema} {n : Node} (h : n.WellFormed s) {b : Branch Node}
    (hb : n.HasBranch b) : ∃ a, s.attributeById? a.id = some a ∧ b.On a := by
  induction h with
  | terminal => cases hb
  | @test a branches ha hlength hon hbelow ih =>
    cases hb with
    | here hmem => exact ⟨a, ha, hon b hmem⟩
    | behind hmem hc => exact ih _ hmem hc

/-- The walk from a well-formed node ends in a decision code, or finds no match, or stops at
    a tested attribute without a slot. -/
theorem Node.WellFormed.decide_cases {s : Schema} (options : EvalOptions) (record : Record) {n : Node}
    (h : n.WellFormed s) :
    (∃ code : Int, 0 ≤ code ∧ code < s.decisionCount ∧
        n.decide options record = .ok (.integer code)) ∨
      n.decide options record = .error .noMatch ∨
      ∃ a, s.attributeById? a.id = some a ∧ a.slot = .unbound ∧ n.Tests a.id ∧
        n.decide options record = .error (.unboundSlot a.id) := by
  induction h with
  | @terminal code hlow hhigh => exact .inl ⟨code, hlow, hhigh, rfl⟩
  | @test a branches ha hlength hon hbelow ih =>
    rcases decideBranches_cases options record branches with
      ⟨-, hnone⟩ | ⟨before, b, after, rfl, -, ⟨-, htake⟩ | ⟨attr, hfault, hstop⟩⟩
    · exact .inr (.inl hnone)
    · -- the walk goes on behind `b`
      have hb : b ∈ before ++ b :: after := by simp
      rcases ih b hb with ⟨code, hlow, hhigh, hcode⟩ | hnone | ⟨c, hc, hslot, htests, hstop⟩
      · exact .inl ⟨code, hlow, hhigh, htake.trans hcode⟩
      · exact .inr (.inl (htake.trans hnone))
      · exact .inr (.inr ⟨c, hc, hslot, .behind hb htests, htake.trans hstop⟩)
    · have hb : b ∈ before ++ b :: after := by simp
      obtain ⟨rfl, hslot, htest⟩ := Branch.verdict_of_fault hfault
      have hba : b.attr = a.id := (hon b hb).attr_eq
      refine .inr (.inr ⟨a, ha, ?_, .here hb hba htest, ?_⟩)
      · rw [← (hon b hb).slot_eq, hslot]
      · rw [← hba]
        exact hstop

theorem Schema.WellFormed.decisionType {s : Schema} (h : s.WellFormed) :
    s.decisionAttribute.valueType = .integer := by
  have hkind : s.decisionAttribute.kind = .enumerated := by
    simpa [Attribute.isEnumerated] using h.decision_enumerated
  rw [Attribute.valueType, hkind]
  rfl

/-- What the evaluation of a well-formed tree comes to. -/
theorem DecisionTree.WellFormed.evaluate_cases {s : Schema} (hs : s.WellFormed) {tree : DecisionTree}
    (h : tree.WellFormed s) (options : EvalOptions) (record : Record) :
    (∃ code name, s.decisionName? code = some name ∧
        tree.evaluate options record = .ok ⟨.integer code, .integer⟩) ∨
      tree.evaluate options record = .error .noMatch ∨
      ∃ a ∈ s.attributes, a.slot = .unbound ∧ (∃ top, tree.top = some top ∧ top.Tests a.id) ∧
        tree.evaluate options record = .error (.unboundSlot a.id) := by
  obtain ⟨top, htop, hwf⟩ := h.top
  have hevaluate : tree.evaluate options record =
      (top.decide options record).map fun v => ⟨v, .integer⟩ := by
    rw [evaluate, htop, h.type_eq, hs.decisionType]
  rw [hevaluate]
  rcases hwf.decide_cases options record with
    ⟨code, hlow, hhigh, hcode⟩ | hnone | ⟨a, ha, hslot, htests, hstop⟩
  · left
    obtain ⟨name, hname⟩ := Option.isSome_iff_exists.mp
      (Schema.isSome_decisionName?_iff.mpr ⟨hlow, hhigh⟩)
    exact ⟨code, name, hname, by rw [hcode]; rfl⟩
  · right
    left
    rw [hnone]
    rfl
  · right
    right
    exact ⟨a, List.mem_of_getElem? ha, hslot, ⟨top, htop, htests⟩, by rw [hstop]; rfl⟩

/-! ### Loaded models -/

theorem Schema.isBound_bindById (s : Schema) :
    ∀ a ∈ s.bindById.attributes, a.slot.isBound = true := by
  intro b hb
  obtain ⟨a, -, rfl⟩ := List.mem_map.mp hb
  rfl

/-- **A loaded model never goes wrong.**  Every configuration that is read can be applied to
    the schema.  Whatever it bound, a tree over the bound schema decides a code that has a name,
    or finds no match, or stops at an attribute without a slot that it tests; if all are bound,
    as they are without a list of bindings, it never stops. -/
theorem evaluate_of_loaded {names : SourceFile} {schema : Schema}
    (hschema : Names.parse names = .ok schema) :
    (∀ document config, Config.parse document = some config →
      ∃ bound unknown, config.applyBindings schema = some (bound, unknown)) ∧
    ∀ (config : Config) (bound : Schema) (unknown : List String),
      config.applyBindings schema = some (bound, unknown) →
      (config.bindings = none → ∀ a ∈ bound.attributes, a.slot.isBound = true) ∧
      ∀ (file : SourceFile) (tree : DecisionTree), TreeFile.parse bound file = .ok tree →
      ∀ (options : EvalOptions) (record : Record),
        ((∃ code name, bound.decisionName? code = some name ∧
            tree.evaluate options record = .ok ⟨.integer code, .integer⟩) ∨
          tree.evaluate options record = .error .noMatch ∨
          ∃ a ∈ bound.attributes, a.slot = .unbound ∧
            (∃ top, tree.top = some top ∧ top.Tests a.id) ∧
            tree.evaluate options record = .error (.unboundSlot a.id)) ∧
        ((∀ a ∈ bound.attributes, a.slot.isBound = true) →
          (∃ code name, bound.decisionName? code = some name ∧
            tree.evaluate options record = .ok ⟨.integer code, .integer⟩) ∨
          tree.evaluate options record = .error .noMatch) := by
  constructor
  · intro document config hconfig
    obtain ⟨⟨bound, unknown⟩, hbound⟩ := Option.isSome_iff_exists.mp
      ((Config.slotsInRange_of_parse hconfig).isSome_applyBindings schema)
    exact ⟨bound, unknown, hbound⟩
  · intro config bound unknown hbound
    refine ⟨?_, ?_⟩
    · intro hnone
      rw [Config.applyBindings_eq, hnone] at hbound
      cases hbound
      exact schema.isBound_bindById
    · intro file tree htree options record
      have hrebound := Config.rebound_of_applyBindings hbound
      have hwf : bound.WellFormed := hrebound.wellFormed (Names.built_of_parse hschema).wellFormed
      have hcases := (TreeFile.wellFormed_of_parse hwf htree).evaluate_cases hwf options record
      refine ⟨hcases, ?_⟩
      intro hall
      rcases hcases with hdecided | hnone | ⟨a, ha, hslot, -, -⟩
      · exact .inl hdecided
      · exact .inr hnone
      · -- a slot that is bound is none that stops the walk
        have hslotBound := hall a ha
        rw [hslot] at hslotBound
        cases hslotBound

def bindingsDocument : String := "bindings.level = 7\nbindings.height = 0\n"

/-- A configuration that binds one attribute, and lists one that is not defined. -/
def partialBindings : Config := { Config.empty with bindings := some [("level", 7), ("height", 0)] }

/-- The schema that `partialBindings` makes of the schema of policies. -/
def partiallyBound : Schema := TreeFile.policySchema.bindSlot "level" (.index 7)

open TreeFile in
theorem evaluate_policy_of_partialBindings :
    Names.parse policyNames = .ok policySchema ∧
      Config.parse bindingsDocument = some partialBindings ∧
      partialBindings.applyBindings policySchema = some (partiallyBound, ["height"]) ∧
      TreeFile.parse partiallyBound policyTree = .ok (policy (.index 7) .unbound) ∧
      ((∃ code name, partiallyBound.decisionName? code = some name ∧
          (policy (.index 7) .unbound).evaluate ⟨.legacy⟩ (.dense [.integer (-1)]) =
            .ok ⟨.integer code, .integer⟩) ∨
        (policy (.index 7) .unbound).evaluate ⟨.legacy⟩ (.dense [.integer (-1)]) =
          .error .noMatch ∨
        ∃ a ∈ partiallyBound.attributes, a.slot = .unbound ∧
          (∃ top, (policy (.index 7) .unbound).top = some top ∧ top.Tests a.id) ∧
          (policy (.index 7) .unbound).evaluate ⟨.legacy⟩ (.dense [.integer (-1)]) =
            .error (.unboundSlot a.id)) := by
  have hconfig : Config.parse bindingsDocument = some partialBindings := by decide +kernel
  have hbound : partialBindings.applyBindings policySchema = some (partiallyBound, ["height"]) := by
    cbv
  have htree : TreeFile.parse partiallyBound policyTree = .ok (policy (.index 7) .unbound) := by cbv
  obtain ⟨-, hloaded⟩ := evaluate_of_loaded parse_policyNames
  obtain ⟨-, hevaluate⟩ := hloaded partialBindings partiallyBound ["height"] hbound
  exact ⟨parse_policyNames, hconfig, hbound, htree,
    (hevaluate policyTree _ htree ⟨.legacy⟩ (.dense [.integer (-1)])).1⟩

end DecisionModel
