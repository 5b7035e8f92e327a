import DecisionModel.Proofs.Evaluation.Walk
import DecisionModel.Proofs.Schema.Slots

/-!
# Trees at slots

The attributes that a tree tests can be put at other slots.  Evaluation looks at a record
through the slots only: where two layouts of records hold the same values, the tree decides the
same at either.
-/

namespace DecisionModel

/-- The branch at the slot that is given for its attribute, with its child changed by `f`. -/
def Branch.atSlots {α β : Type} (slots : AttrId → Slot) (f : α → β) (b : Branch α) : Branch β :=
  ⟨b.attr, slots b.attr, b.test, f b.child⟩

namespace Node

mutual

/-- The node with all branches at the given slots. -/
def atSlots (slots : AttrId → Slot) : Node → Node
  | .terminal v => .terminal v
  | .test branches => .test (branchesAtSlots slots branches)
termination_by structural n => n

def branchesAtSlots (slots : AttrId → Slot) : List (Branch Node) → List (Branch Node)
  | [] => []
  | ⟨attr, _, t, child⟩ :: rest =>
    ⟨attr, slots attr, t, child.atSlots slots⟩ :: branchesAtSlots slots rest
termination_by structural branches => branches

end

theorem branchesAtSlots_eq_map (slots : AttrId → Slot) (branches : List (Branch Node)) :
    branchesAtSlots slots branches = branches.map (Branch.atSlots slots (atSlots slots)) := by
  induction branches with
  | nil => rfl
  | cons b rest ih =>
    obtain ⟨attr, slot, t, child⟩ := b
    rw [branchesAtSlots, ih]
    rfl

theorem atSlots_test (slots : AttrId → Slot) (branches : List (Branch Node)) :
    (Node.test branches).atSlots slots =
      .test (branches.map (Branch.atSlots slots (atSlots slots))) := by
  rw [atSlots, branchesAtSlots_eq_map]

/-- Only the last slots count. -/
theorem atSlots_atSlots (slots slots' : AttrId → Slot) (n : Node) :
    (n.atSlots slots).atSlots slots' = n.atSlots slots' := by
  induction n using Node.induct with
  | terminal v => rfl
  | test branches ih =>
    rw [atSlots_test, atSlots_test, atSlots_test, List.map_map]
    congr 1
    apply List.map_congr_left
    intro b hb
    simp only [Function.comp_apply, Branch.atSlots, ih b hb]

end Node

namespace DecisionTree

/-- The tree with all branches at the given slots. -/
def atSlots (slots : AttrId → Slot) (t : DecisionTree) : DecisionTree :=
  { t with top := t.top.map (·.atSlots slots) }

theorem atSlots_atSlots (slots slots' : AttrId → Slot) (t : DecisionTree) :
    (t.atSlots slots).atSlots slots' = t.atSlots slots' := by
  obtain ⟨name, type, top⟩ := t
  rcases top with _ | top
  · rfl
  · simp only [atSlots, Option.map_some, Node.atSlots_atSlots]

end DecisionTree

/-! ### Evaluation at two layouts -/

/-- Under two layouts, two records have the same value of the attribute, or neither layout has
    a place for it. -/
def SameAt (slots slots' : AttrId → Slot) (record record' : Record) (attr : AttrId) : Prop :=
  (slots attr = .unbound ∧ slots' attr = .unbound) ∨
    ((slots attr).isBound = true ∧ (slots' attr).isBound = true ∧
      record (slots attr) = record' (slots' attr))

variable {slots slots' : AttrId → Slot} {record record' : Record}

theorem SameAt.verdict_eq {attr : AttrId} (h : SameAt slots slots' record record' attr)
    (options : EvalOptions) (test : Option Test) :
    verdict options record attr (slots attr) test =
      verdict options record' attr (slots' attr) test := by
  rcases test with _ | t
  · rfl
  · rcases h with ⟨hunbound, hunbound'⟩ | ⟨hbound, hbound', hvalue⟩
    · simp only [verdict, hunbound, hunbound', Slot.isBound, Bool.false_eq_true, if_false]
    · simp only [verdict, hbound, hbound', hvalue]

/-- **Evaluation depends on the values, and not on where they are kept.** -/
theorem Node.decide_atSlots (h : ∀ attr, SameAt slots slots' record record' attr)
    (options : EvalOptions) (n : Node) :
    (n.atSlots slots).decide options record = (n.atSlots slots').decide options record' := by
  apply Node.induct_branches (p := fun n =>
      (n.atSlots slots).decide options record = (n.atSlots slots').decide options record')
    (q := fun bs => decideBranches options record (branchesAtSlots slots bs) =
      decideBranches options record' (branchesAtSlots slots' bs))
  · intro v
    rfl
  · intro branches h
    exact h
  · rfl
  · rintro ⟨attr, slot, test, child⟩ rest hchild hrest
    have hverdict := (h attr).verdict_eq options test
    simp only [branchesAtSlots, decideBranches, hverdict, hchild, hrest]

theorem DecisionTree.evaluate_atSlots (h : ∀ attr, SameAt slots slots' record record' attr)
    (options : EvalOptions) (t : DecisionTree) :
    (t.atSlots slots).evaluate options record = (t.atSlots slots').evaluate options record' := by
  obtain ⟨name, type, top⟩ := t
  rcases top with _ | top
  · rfl
  · simp only [evaluate, atSlots, Option.map_some, Node.decide_atSlots h]

end DecisionModel
