import DecisionModel.Proofs.Evaluation.Filling

/-!
# Where the equality of texts counts

The two readings of equality differ on texts alone: where a test asks whether a text equals the
text of the record, under one of them it passes and under the other it does not.  All other
tests pass or fail alike.  A tree that was read tests for codes only, and codes are numbers, so
that it decides the same under both.
-/

namespace DecisionModel

namespace Test

/-- The test asks whether a text is the expected one. -/
def ComparesTexts (t : Test) (input : Value) : Prop :=
  t.condition = .eq ∧ ∃ expected actual, t.value = .text expected ∧ input = .text actual

variable {t : Test} {input : Value}

theorem passes_legacy_of_comparesTexts (h : t.ComparesTexts input) :
    t.passes ⟨.legacy⟩ input = !t.passes ⟨.strict⟩ input := by
  obtain ⟨condition, value⟩ := t
  obtain ⟨rfl, expected, actual, rfl, rfl⟩ := h
  rfl

theorem passes_eq_of_not_comparesTexts (h : ¬ t.ComparesTexts input)
    (options options' : EvalOptions) : t.passes options input = t.passes options' input := by
  unfold passes
  split
  · rfl
  · rfl
  · rfl
  · -- the one case that looks at the options
    rename_i expected hcondition hvalue
    split
    · rename_i actual
      exact absurd ⟨hcondition, expected, actual, hvalue, rfl⟩ h
    · rfl
  · rfl

/-- The readings of equality differ exactly where texts are compared. -/
theorem passes_ne_legacy_iff :
    t.passes ⟨.strict⟩ input ≠ t.passes ⟨.legacy⟩ input ↔ t.ComparesTexts input := by
  constructor
  · intro hne
    by_contra hnot
    exact hne (passes_eq_of_not_comparesTexts hnot _ _)
  · intro h
    rw [passes_legacy_of_comparesTexts h]
    cases t.passes ⟨.strict⟩ input <;> decide

/-- A test for codes compares no texts. -/
theorem Codes.not_comparesTexts {codes : List Int} (h : t.Codes codes) :
    ¬ t.ComparesTexts input := by
  rintro ⟨hcondition, expected, -, hvalue, -⟩
  cases h with
  | eq => cases hvalue
  | mask => cases hcondition
  | array => cases hcondition

end Test

/-! ### Trees -/

theorem DecisionTree.WellFormed.evaluate_legacy {s : Schema} {tree : DecisionTree}
    (h : tree.WellFormed s) (record : Record) :
    tree.evaluate ⟨.strict⟩ record = tree.evaluate ⟨.legacy⟩ record := by
  obtain ⟨top, htop, hwf⟩ := h.top
  apply evaluate_congr
  intro top' b htop' hb
  have hsame : top' = top := Option.some.inj (htop'.symm.trans htop)
  subst hsame
  obtain ⟨a, -, hon⟩ := hwf.exists_on hb
  apply Branch.verdict_eq_of_passes_eq
  intro t input htest
  obtain ⟨codes, hcodes, -⟩ := hon.test_asks t htest
  exact Test.passes_eq_of_not_comparesTexts hcodes.not_comparesTexts _ _

/-- **The reading of equality concerns texts and nothing else.**  A test passes under one
    reading and fails under the other exactly if it compares texts, and all trees that are read
    are evaluated alike under both. -/
theorem legacy_differs_on_texts_only :
    (∀ (t : Test) (input : Value),
      (t.passes ⟨.strict⟩ input ≠ t.passes ⟨.legacy⟩ input ↔ t.ComparesTexts input) ∧
      (t.ComparesTexts input →
        Xor (t.passes ⟨.strict⟩ input = true) (t.passes ⟨.legacy⟩ input = true))) ∧
    ∀ {origin schema : Schema}, (origin.Built ∨ ∃ names, Names.parse names = .ok origin) →
      origin.Rebound schema → ∀ {file : SourceFile} {tree : DecisionTree},
        TreeFile.parse schema file = .ok tree → ∀ record : Record,
          tree.evaluate ⟨.strict⟩ record = tree.evaluate ⟨.legacy⟩ record := by
  constructor
  · intro t input
    refine ⟨Test.passes_ne_legacy_iff, ?_⟩
    intro htexts
    rw [Test.passes_legacy_of_comparesTexts htexts]
    cases t.passes ⟨.strict⟩ input <;> simp [Xor]
  · intro origin schema source bound file tree h record
    have hwf : schema.WellFormed := bound.wellFormed (Names.wellFormed_of_source source)
    exact (TreeFile.wellFormed_of_parse hwf h).evaluate_legacy record

open TreeFile in
/-- A test that differs, and a tree that does not although its record holds texts. -/
theorem legacy_differs_on_play :
    (⟨.eq, .text "play"⟩ : Test).ComparesTexts (.text "stop") ∧
      Xor ((⟨.eq, .text "play"⟩ : Test).passes ⟨.strict⟩ (.text "stop") = true)
        ((⟨.eq, .text "play"⟩ : Test).passes ⟨.legacy⟩ (.text "stop") = true) ∧
      Names.parse policyNames = .ok policySchema ∧
      policySchema.Rebound policySchema.bindById ∧
      TreeFile.parse policySchema.bindById policyTree = .ok (policy (.index 1) (.index 2)) ∧
      (policy (.index 1) (.index 2)).evaluate ⟨.strict⟩
          (.dense [.integer 0, .text "loud", .text "mid"]) =
        (policy (.index 1) (.index 2)).evaluate ⟨.legacy⟩
          (.dense [.integer 0, .text "loud", .text "mid"]) := by
  have htexts : (⟨.eq, .text "play"⟩ : Test).ComparesTexts (.text "stop") :=
    ⟨rfl, "play", "stop", rfl, rfl⟩
  have hbound : policySchema.Rebound policySchema.bindById := .bindById .refl
  have htree : TreeFile.parse policySchema.bindById policyTree =
      .ok (policy (.index 1) (.index 2)) := parse_policyTree hbound
  obtain ⟨htests, htrees⟩ := legacy_differs_on_texts_only
  exact ⟨htexts, (htests _ _).2 htexts, parse_policyNames, hbound, htree,
    htrees (.inr ⟨policyNames, parse_policyNames⟩) hbound htree _⟩

end DecisionModel
