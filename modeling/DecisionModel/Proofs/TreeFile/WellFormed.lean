import Mathlib
import DecisionModel.Proofs.Names.Schema
import DecisionModel.Proofs.TreeFile.Step
import DecisionModel.Proofs.TreeFile.SubsetTest

/-!
# Trees that are read are well-formed

Over a schema that was built or read, and bound in any way, every tree that is read decides
codes of the decision attribute, and tests at each node one attribute, at its slot and for its
codes.  The invariant of reading is that this holds of every branch on the stack.
-/

namespace DecisionModel

/-! ### Well-formed trees -/

/-- A test for codes of the attribute: equality with an integer, or membership in a mask or
    in an array of integers. -/
def Test.AsksFor (t : Test) (a : Attribute) : Prop :=
  ∃ codes, t.Codes codes ∧ ∀ code ∈ codes, a.HasCode code

/-- A branch on the attribute, at its slot, that tests for its codes if it tests anything. -/
structure Branch.On {α : Type} (b : Branch α) (a : Attribute) : Prop where
  attr_eq : b.attr = a.id
  slot_eq : b.slot = a.slot
  test_asks : ∀ t, b.test = some t → t.AsksFor a

/-- A node that fits the schema, with all that is behind it. -/
inductive Node.WellFormed (s : Schema) : Node → Prop
  | terminal {code : Int} : 0 ≤ code → code < s.decisionCount →
      WellFormed s (.terminal (.integer code))
  | test {a : Attribute} {branches : List (Branch Node)} : s.attributeById? a.id = some a →
      branches.length ≤ 100 → (∀ b ∈ branches, b.On a) →
      (∀ b ∈ branches, WellFormed s b.child) → WellFormed s (.test branches)

/-- A tree for the decision attribute of the schema, whose nodes fit the schema. -/
structure DecisionTree.WellFormed (s : Schema) (t : DecisionTree) : Prop where
  name_eq : t.name = s.decisionAttribute.name
  type_eq : t.decisionType = s.decisionAttribute.valueType
  top : ∃ top, t.top = some top ∧ top.WellFormed s

theorem Schema.WellFormed.attributeById?_of_attribute? {s : Schema} (h : s.WellFormed)
    {name : String} {a : Attribute} (ha : s.attribute? name = some a) :
    s.attributeById? a.id = some a :=
  h.attributes.getElem?_id (List.mem_of_find?_eq_some ha)

namespace TreeFile

/-! ### Branches -/

theorem on_branch (a : Attribute) {t : Test} (h : t.AsksFor a) :
    (a.branch (some t) () : Branch Unit).On a where
  attr_eq := rfl
  slot_eq := rfl
  test_asks := by
    intro t' ht'
    cases ht'
    exact h

theorem on_withChild {a : Attribute} {b : Branch Unit} (h : b.On a) (child : Node) :
    (withChild b child).On a := ⟨h.attr_eq, h.slot_eq, h.test_asks⟩

theorem on_valueBranches (a : Attribute) (ha : a.WellFormed) (count : Nat) :
    ∀ b ∈ valueBranches a count, b.On a := by
  intro b hb
  obtain ⟨⟨value, code⟩, hentry, rfl⟩ := List.mem_map.mp hb
  have hmem : (value, code) ∈ a.values := by
    have hsorted := List.mem_of_mem_take hentry
    simpa [Attribute.sortedValues] using hsorted
  refine on_branch a ⟨[code], .eq code, ?_⟩
  intro c hc
  rw [List.mem_singleton] at hc
  subst hc
  exact ⟨value, ha.codeOf?_eq_some_iff.mpr hmem⟩

theorem on_thresholdBranches (a : Attribute) (count : Nat) :
    ∀ b ∈ thresholdBranches a count, b.On a := by
  intro b hb
  rw [List.eq_of_mem_replicate hb]
  exact ⟨rfl, rfl, by simp [Attribute.branch]⟩

theorem on_subsetBranches (a : Attribute) {sets : List (List Int)}
    (h : ∀ codes ∈ sets, ∀ code ∈ codes, a.HasCode code) :
    ∀ b ∈ subsetBranches a sets, b.On a := by
  intro b hb
  obtain ⟨codes, hcodes, rfl⟩ := List.mem_map.mp hb
  obtain ⟨shown, hshown, hmem⟩ := exists_codes_subsetTest codes
  refine on_branch a ⟨shown, hshown, ?_⟩
  intro code hcode
  exact h codes hcodes code ((hmem code).mp hcode)

/-! ### The invariant of reading -/

/-- An open test of at most 100 branches, all of them on one attribute of the schema. -/
structure Frame.Valid (s : Schema) (f : Frame) : Prop where
  known : ∃ a, s.attributeById? a.id = some a ∧ (∀ b ∈ f.done, b.On a) ∧ f.current.On a ∧
    ∀ b ∈ f.pending, b.On a
  children : ∀ b ∈ f.done, b.child.WellFormed s
  count : f.done.length + 1 + f.pending.length ≤ maxForks

/-- The invariant of reading over a schema. -/
def State.Valid (s : Schema) : State → Prop
  | .header => True
  | .node stack => ∀ f ∈ stack, f.Valid s
  | .placeholder a forks _ stack =>
    s.attributeById? a.id = some a ∧ forks ≤ maxForks ∧ ∀ f ∈ stack, f.Valid s
  | .subsets a missing sets stack =>
    s.attributeById? a.id = some a ∧ 1 ≤ missing ∧ sets.length + missing ≤ maxForks ∧
      (∀ codes ∈ sets, ∀ code ∈ codes, a.HasCode code) ∧ ∀ f ∈ stack, f.Valid s
  | .complete top => top.WellFormed s

variable {s : Schema}

/-- A well-formed node completes a branch, and maybe tests, which are well-formed then. -/
theorem State.Valid.plug {stack : List Frame} (hstack : ∀ f ∈ stack, f.Valid s) :
    ∀ {child : Node}, child.WellFormed s → (State.plug child stack).Valid s := by
  induction stack with
  | nil =>
    intro child hchild
    exact hchild
  | cons f rest ih =>
    intro child hchild
    obtain ⟨⟨a, ha, hdone, hcurrent, hpending⟩, hchildren, hcount⟩ := hstack f (by simp)
    have hrest : ∀ g ∈ rest, g.Valid s := fun g hg => hstack g (by simp [hg])
    have hon : ∀ b ∈ f.done ++ [withChild f.current child], b.On a := by
      intro b hb
      rcases List.mem_append.mp hb with hold | hnew
      · exact hdone b hold
      · rw [List.mem_singleton] at hnew
        subst hnew
        exact on_withChild hcurrent child
    have hbelow : ∀ b ∈ f.done ++ [withChild f.current child], b.child.WellFormed s := by
      intro b hb
      rcases List.mem_append.mp hb with hold | hnew
      · exact hchildren b hold
      · rw [List.mem_singleton] at hnew
        subst hnew
        exact hchild
    simp only [State.plug]
    rcases hnext : f.pending with _ | ⟨next, later⟩
    · -- the test is complete, and its own branch waits for it further down the stack
      have hlength : (f.done ++ [withChild f.current child]).length ≤ 100 := by
        simp only [hnext, List.length_nil, maxForks] at hcount
        simp only [List.length_append, List.length_singleton]
        omega
      exact ih hrest (.test ha hlength hon hbelow)
    · rw [hnext] at hpending hcount
      intro g hg
      rcases List.mem_cons.mp hg with rfl | hold
      · refine ⟨⟨a, ha, hon, hpending next (by simp), fun b hb => hpending b (by simp [hb])⟩,
          hbelow, ?_⟩
        simp only [List.length_append, List.length_cons, List.length_nil] at hcount ⊢
        omega
      · exact hrest g hold

theorem State.Valid.descend {a : Attribute} (ha : s.attributeById? a.id = some a)
    {branches : List (Branch Unit)} (hon : ∀ b ∈ branches, b.On a)
    (hlength : branches.length ≤ maxForks) {stack : List Frame}
    (hstack : ∀ f ∈ stack, f.Valid s) : (State.descend branches stack).Valid s := by
  cases branches with
  | nil => exact .plug hstack (.test ha (by simp) (by simp) (by simp))
  | cons next rest =>
    intro f hf
    rcases List.mem_cons.mp hf with rfl | hold
    · refine ⟨⟨a, ha, by simp, hon next (by simp), fun b hb => hon b (by simp [hb])⟩, by simp, ?_⟩
      simp only [List.length_cons, List.length_nil] at hlength ⊢
      omega
    · exact hstack f hold

/-- The record of a node keeps the invariant. -/
theorem NodeMove.valid (hs : s.WellFormed) {stack : List Frame} (hstack : ∀ f ∈ stack, f.Valid s)
    {s' : State} (h : NodeMove s stack s') : s'.Valid s := by
  cases h with
  | terminal hcode =>
    obtain ⟨hlow, hhigh, -⟩ := hs.decisionCode_bounds hcode
    exact .plug hstack (.terminal hlow hhigh)
  | values span ha hlow hhigh =>
    exact ⟨hs.attributeById?_of_attribute? ha, hhigh, hstack⟩
  | @threshold name a forks ha hlow hhigh =>
    refine .descend (hs.attributeById?_of_attribute? ha) (on_thresholdBranches a forks) ?_ hstack
    simpa [thresholdBranches] using hhigh
  | @inlineSets name a sets ha hlow hhigh hcodes =>
    refine .descend (hs.attributeById?_of_attribute? ha) (on_subsetBranches a hcodes) ?_ hstack
    simpa [subsetBranches] using hhigh
  | followingSets ha hlow hhigh =>
    exact ⟨hs.attributeById?_of_attribute? ha, hlow, by simpa using hhigh, by simp, hstack⟩

/-- **Every line keeps the invariant.** -/
theorem Move.valid (hs : s.WellFormed) {l : Line} {t t' : State} (h : Move s l t t')
    (ht : t.Valid s) : t'.Valid s := by
  cases h with
  | blank => exact ht
  | header => trivial
  | top hline hmove => exact hmove.valid hs (by simp)
  | node hline hmove => exact hmove.valid hs ht
  | @placeholder a forks span stack hcount =>
    obtain ⟨ha, hforks, hstack⟩ := ht
    have hwf : a.WellFormed := hs.attributes.each a (List.mem_of_getElem? ha)
    refine .descend ha (on_valueBranches a hwf (forks - 1)) ?_ hstack
    simp only [valueBranches, List.length_map, List.length_take]
    omega
  | nextSet sets stack hline hmissing hcodes =>
    obtain ⟨ha, hlow, hcount, hsets, hstack⟩ := ht
    refine ⟨ha, by omega, ?_, ?_, hstack⟩
    · simp only [List.length_append, List.length_singleton]
      omega
    · intro codes hmem
      rcases List.mem_append.mp hmem with hold | hnew
      · exact hsets codes hold
      · rw [List.mem_singleton] at hnew
        subst hnew
        exact hcodes
  | @lastSet a missing sets codes stack hline hmissing hcodes =>
    obtain ⟨ha, hlow, hcount, hsets, hstack⟩ := ht
    refine .descend ha (on_subsetBranches a ?_) ?_ hstack
    · intro codes' hmem
      rcases List.mem_append.mp hmem with hold | hnew
      · exact hsets codes' hold
      · rw [List.mem_singleton] at hnew
        subst hnew
        exact hcodes
    · simp only [subsetBranches, List.length_map, List.length_append, List.length_singleton]
      omega

theorem wellFormed_of_parse (hs : s.WellFormed) {file : SourceFile} {tree : DecisionTree}
    (h : parse s file = .ok tree) : tree.WellFormed s := by
  obtain ⟨top, hrun, rfl⟩ := run_of_parse h
  have hstart : State.header.Valid s := trivial
  have hvalid : (State.complete top).Valid s :=
    foldlM_invariant (fun _ _ _ _ ht hstep => (State.move_of_step hstep).valid hs ht) hstart hrun
  exact ⟨rfl, rfl, top, rfl, hvalid⟩

/-- **Every tree that is read is well-formed** for its schema, if that was built by any calls
    or read from any text, and bound in any way. -/
theorem wellFormed_of_parse_rebound {origin schema : Schema}
    (source : origin.Built ∨ ∃ names, Names.parse names = .ok origin)
    (bound : origin.Rebound schema) {file : SourceFile} {tree : DecisionTree}
    (h : parse schema file = .ok tree) : tree.WellFormed schema := by
  have horigin : origin.WellFormed := by
    rcases source with hbuilt | ⟨names, hread⟩
    · exact hbuilt.wellFormed
    · exact (Names.built_of_parse hread).wellFormed
  exact wellFormed_of_parse (bound.wellFormed horigin) h

/-! ### A schema and a tree -/

def policyNames : SourceFile where
  name := "policy.names"
  content := "state.
state: stop, pause, play.
level: continuous.
count: low, mid, high.
"

def policySchema : Schema where
  attributes :=
    [⟨"state", ⟨0⟩, .enumerated, .unbound, [("stop", 0), ("pause", 1), ("play", 2)]⟩,
      ⟨"level", ⟨1⟩, .continuous, .unbound, []⟩,
      ⟨"count", ⟨2⟩, .enumerated, .unbound, [("low", 0), ("mid", 1), ("high", 2)]⟩]
  decision := ⟨0⟩
  decisionNames := ["stop", "pause", "play"]
  decision_defined := by decide

theorem parse_policyNames : Names.parse policyNames = .ok policySchema := by cbv

/-- A tree with a test of each type. -/
def policyTree : SourceFile where
  name := "policy.tree"
  content := "id=\"policy\"
type=\"3\" att=\"count\" forks=\"2\"
elts=\"low\"
elts=\"mid\",\"high\"
type=\"2\" att=\"level\" forks=\"1\"
type=\"0\" class=\"stop\"
type=\"1\" att=\"count\" forks=\"3\"

type=\"0\" class=\"pause\"
type=\"0\" class=\"play\"
"

/-- What `policyTree` says, with the attributes it tests at the given slots. -/
def policy (level count : Slot) : DecisionTree where
  name := "state"
  decisionType := .integer
  top := some <| .test
    [⟨⟨2⟩, count, some ⟨.eq, .integer 0⟩, .test [⟨⟨1⟩, level, none, .terminal (.integer 0)⟩]⟩,
      ⟨⟨2⟩, count, some ⟨.within, .mask ⟨6⟩⟩, .test
        [⟨⟨2⟩, count, some ⟨.eq, .integer 0⟩, .terminal (.integer 1)⟩,
          ⟨⟨2⟩, count, some ⟨.eq, .integer 1⟩, .terminal (.integer 2)⟩]⟩]

theorem wellFormed_policy :
    Names.parse policyNames = .ok policySchema ∧
      policySchema.Rebound policySchema.bindById ∧
      parse policySchema.bindById policyTree = .ok (policy (.index 1) (.index 2)) ∧
      (policy (.index 1) (.index 2)).WellFormed policySchema.bindById := by
  have hbound : policySchema.Rebound policySchema.bindById := .bindById .refl
  have htree : parse policySchema.bindById policyTree = .ok (policy (.index 1) (.index 2)) := by cbv
  exact ⟨parse_policyNames, hbound, htree,
    wellFormed_of_parse_rebound (.inr ⟨policyNames, parse_policyNames⟩) hbound htree⟩

end TreeFile

end DecisionModel
