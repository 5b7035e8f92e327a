import Mathlib
import DecisionModel.Proofs.Tree.Paths
import DecisionModel.Proofs.TreeFile.Grammar
import DecisionModel.Proofs.TreeFile.SubsetTest
import DecisionModel.Proofs.TreeFile.Usage

/-!
# What branches of read trees ask

A branch of a tree that was read asks for a value of an attribute of the schema, or for a set
of such values, or for nothing.  No set is empty, since a field has a value at least.
-/

namespace DecisionModel.TreeFile

/-- The codes are those of some values of the attribute. -/
structure SetOf (a : Attribute) (codes : List Int) : Prop where
  ne_nil : codes ≠ []
  hasCode : ∀ code ∈ codes, a.HasCode code

/-- What text can have a branch ask of the attribute. -/
inductive Asks (a : Attribute) : Option Test → Prop
  | nothing : Asks a none
  | value {code : Int} : a.HasCode code → Asks a (some ⟨.eq, .integer code⟩)
  | set {codes : List Int} : SetOf a codes → Asks a (some (subsetTest codes))

/-- The branch asks something of an attribute of the schema. -/
def Asked (schema : Schema) {α : Type} (b : Branch α) : Prop :=
  ∃ a, schema.attributeById? a.id = some a ∧ b.attr = a.id ∧ Asks a b.test

/-! ### Fields -/

theorem Record.values_ne_nil {l : Line} {r : Record} (h : Record.parse l = .ok r) {f : Field}
    (hf : f ∈ r.fields) : f.values ≠ [] := by
  obtain ⟨gs, -, rfl⟩ := Record.parse_eq_ok_iff.mp h
  obtain ⟨g, -, rfl⟩ := List.mem_map.mp hf
  simp [Group.field, Group.values]

theorem Record.mem_of_required {r : Record} {name : String} {f : Field}
    (h : r.required name = .ok f) : f ∈ r.fields := by
  unfold Record.required at h
  split at h
  · rename_i f' hf'
    cases h
    exact List.mem_of_find?_eq_some hf'
  · cases h

theorem Field.setOf_codes {f : Field} (hf : f.values ≠ []) {a : Attribute} {codes : List Int}
    (h : f.codes a = .ok codes) : SetOf a codes where
  ne_nil := by
    rw [← List.length_pos_iff, length_eq_of_mapM_ok h]
    exact List.length_pos_iff.mpr hf
  hasCode := f.hasCode_of_codes h

/-! ### Uses -/

section

variable {schema : Schema}

/-- The use is about attributes of the schema, and about sets of their values. -/
def Use.Sound (schema : Schema) : Use → Prop
  | .node (.values a _) | .node (.threshold a _) | .node (.followingSets a _) =>
    schema.attributeById? a.id = some a
  | .node (.inlineSets a sets) =>
    schema.attributeById? a.id = some a ∧ ∀ codes ∈ sets, SetOf a codes
  | .set a codes => SetOf a codes
  | _ => True

theorem LineUsedAs.sound (hs : schema.WellFormed) {l : Line} {use : Use}
    (h : LineUsedAs schema l use) : use.Sound schema := by
  have hknown : ∀ {r : Record} {a : Attribute}, r.tested schema = .ok a →
      schema.attributeById? a.id = some a := by
    intro r a ha
    obtain ⟨name, hname⟩ := Record.tested_known ha
    exact hs.attributeById?_of_attribute? hname
  cases h with
  | blank | blankPlaceholder => trivial
  | record _ hr hused =>
    cases hused with
    | header | leafPlaceholder => trivial
    | set hfield hcodes =>
      exact Field.setOf_codes (Record.values_ne_nil hr (Record.mem_of_required hfield)) hcodes
    | node hsays =>
      cases hsays with
      | leaf => trivial
      | values _ ha => exact hknown ha
      | threshold _ ha => exact hknown ha
      | followingSets _ ha => exact hknown ha
      | inlineSets _ ha _ _ hsets =>
        refine ⟨hknown ha, fun codes hcodes => ?_⟩
        obtain ⟨f, hf, hcodes⟩ := exists_mem_of_mapM_ok hsets hcodes
        exact Field.setOf_codes (Record.values_ne_nil hr (List.mem_filter.mp hf).1) hcodes

theorem uses_sound (hs : schema.WellFormed) {lines : List Line} {uses : List Use}
    (h : List.Forall₂ (LineUsedAs schema) lines uses) : ∀ use ∈ uses, use.Sound schema := by
  have hboth : List.Forall₂ (fun use l => use.Sound schema ∧ LineUsedAs schema l use) uses lines :=
    h.flip.imp fun _ _ hl => ⟨hl.sound hs, hl⟩
  exact ((List.forall₂_and_left _ _).mp hboth).1

theorem ListsSets.setOf {a : Attribute} {uses : List Use} {sets : List (List Int)}
    (h : ListsSets a uses sets) (sound : ∀ use ∈ uses, use.Sound schema) :
    ∀ codes ∈ sets, SetOf a codes := by
  induction h with
  | nil => simp
  | blank _ ih => exact ih fun use huse => sound use (by simp [huse])
  | set codes _ ih =>
    intro codes' hcodes
    rcases List.mem_cons.mp hcodes with rfl | hcodes
    · exact sound (.set a codes') (by simp)
    · exact ih (fun use huse => sound use (by simp [huse])) codes' hcodes

theorem asks_subsetBranches {a : Attribute} {sets : List (List Int)}
    (h : ∀ codes ∈ sets, SetOf a codes) :
    ∀ b ∈ subsetBranches a sets, b.attr = a.id ∧ Asks a b.test := by
  intro b hb
  obtain ⟨codes, hcodes, rfl⟩ := List.mem_map.mp hb
  exact ⟨rfl, .set (h codes hcodes)⟩

theorem asks_valueBranches {a : Attribute} (ha : a.WellFormed) (count : Nat) :
    ∀ b ∈ valueBranches a count, b.attr = a.id ∧ Asks a b.test := by
  intro b hb
  obtain ⟨⟨value, code⟩, hentry, rfl⟩ := List.mem_map.mp hb
  have hmem : (value, code) ∈ a.values := by
    simpa [Attribute.sortedValues] using List.mem_of_mem_take hentry
  exact ⟨rfl, .value ⟨value, ha.codeOf?_eq_some_iff.mpr hmem⟩⟩

theorem asks_thresholdBranches (a : Attribute) (count : Nat) :
    ∀ b ∈ thresholdBranches a count, b.attr = a.id ∧ Asks a b.test := by
  intro b hb
  rw [List.eq_of_mem_replicate hb]
  exact ⟨rfl, .nothing⟩

/-- The branches of a test ask of its attribute. -/
theorem Opens.asked (hs : schema.WellFormed) {head : Head} {opening : List Use}
    {branches : List (Branch Unit)} (h : Opens head opening branches)
    (hhead : (Use.node head).Sound schema) (sound : ∀ use ∈ opening, use.Sound schema) :
    ∀ b ∈ branches, Asked schema b := by
  intro b hb
  cases h with
  | values =>
    have ha := hs.attributes.each _ (List.mem_of_getElem? hhead)
    exact ⟨_, hhead, asks_valueBranches ha _ b hb⟩
  | threshold => exact ⟨_, hhead, asks_thresholdBranches _ _ b hb⟩
  | inlineSets => exact ⟨_, hhead.1, asks_subsetBranches hhead.2 b hb⟩
  | followingSets hsets => exact ⟨_, hhead, asks_subsetBranches (hsets.setOf sound) b hb⟩

/-! ### Trees -/

theorem Lists.asked (hs : schema.WellFormed) {uses : List Use} {nodes : List Node}
    (h : Lists uses nodes) (sound : ∀ use ∈ uses, use.Sound schema) :
    ∀ n ∈ nodes, ∀ path b, n.branchAt? path = some b → Asked schema b := by
  induction h with
  | nil => simp
  | blank _ ih => exact ih fun use huse => sound use (by simp [huse])
  | leaf code _ ih =>
    intro n hn path b hb
    rcases List.mem_cons.mp hn with rfl | hn
    · rcases path with _ | ⟨i, _ | ⟨j, path⟩⟩ <;> simp [Node.branchAt?, Node.branches] at hb
    · exact ih (fun use huse => sound use (by simp [huse])) n hn path b hb
  | @test head opening uses branches kids nodes hopens hkids _ ih =>
    have hbranches := hopens.asked hs (sound _ (by simp)) fun use huse => sound use (by simp [huse])
    have hlater := ih fun use huse => sound use (by simp [huse])
    intro n hn path b hb
    rcases List.mem_cons.mp hn with rfl | hn
    · have hat : ∀ (i : Nat) (b : Branch Node),
          (Node.test (List.zipWith withChild branches kids)).branches[i]? = some b →
            Asked schema b ∧ b.child ∈ kids := by
        intro i b hb
        obtain ⟨fork, kid, hfork, hkid, rfl⟩ := List.getElem?_zipWith_eq_some.mp hb
        exact ⟨hbranches fork (List.mem_of_getElem? hfork), List.mem_of_getElem? hkid⟩
      rcases path with _ | ⟨i, _ | ⟨j, path⟩⟩
      · simp at hb
      · exact (hat i b (by simpa using hb)).1
      · rw [Node.branchAt?_cons _ _ (by simp), Option.bind_eq_some_iff] at hb
        obtain ⟨above, habove, hb⟩ := hb
        exact hlater above.child (by simp [(hat i above habove).2]) _ b hb
    · exact hlater n (by simp [hn]) path b hb

/-- **The branches of a tree that was read** ask of attributes of the schema. -/
theorem asked_of_parse (hs : schema.WellFormed) {file : SourceFile} {tree : DecisionTree}
    (h : parse schema file = .ok tree) {path : List Nat} {b : Branch Node}
    (hb : tree.root.branchAt? path = some b) : Asked schema b := by
  rw [parse_eq_readTree, mapError_eq_ok_iff, map_eq_ok_iff] at h
  obtain ⟨top, htop, rfl⟩ := h
  obtain ⟨heading, uses, -, hlists, hused⟩ := uses_of_readTree htop
  have hsound := uses_sound hs hused
  exact hlists.asked hs (fun use huse => hsound use (by simp [huse])) top (by simp) path b hb

end

end DecisionModel.TreeFile
