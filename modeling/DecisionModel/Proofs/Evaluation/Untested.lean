import DecisionModel.Proofs.Evaluation.FirstMatch

/-!
# Branches without a test

A branch is asked for its test before its slot is looked at, so one without a test is passed
over: it is never taken, and never a fault, whether its attribute has a slot or not.  A tree
without these branches, and without what is behind them, decides what it decided before.  Where
all branches of a test are without a test of their own, an empty test stays, which nothing
decides either.
-/

namespace DecisionModel

/-! ### Trees without untested branches -/

mutual

/-- The node without the untested branches, neither here nor at any depth. -/
def Node.dropUntested : Node → Node
  | .terminal v => .terminal v
  | .test branches => .test (dropUntestedBranches branches)
termination_by structural n => n

def dropUntestedBranches : List (Branch Node) → List (Branch Node)
  | [] => []
  | ⟨_, _, none, _⟩ :: rest => dropUntestedBranches rest
  | ⟨attr, slot, some test, child⟩ :: rest =>
    ⟨attr, slot, some test, child.dropUntested⟩ :: dropUntestedBranches rest
termination_by structural branches => branches

end

namespace DecisionTree

def dropUntested (t : DecisionTree) : DecisionTree :=
  { t with top := t.top.map Node.dropUntested }

/-- Every branch of the tree has a test, at any depth. -/
def AllTested (t : DecisionTree) : Prop :=
  ∀ top b, t.top = some top → top.HasBranch b → b.test.isSome = true

end DecisionTree

/-- The branches with a test stay in their order, with less behind them. -/
theorem dropUntestedBranches_eq (branches : List (Branch Node)) :
    dropUntestedBranches branches =
      (branches.filter fun b => b.test.isSome).map fun b =>
        { b with child := b.child.dropUntested } := by
  induction branches with
  | nil => rfl
  | cons b rest ih =>
    obtain ⟨attr, slot, _ | test, child⟩ := b
    · exact ih
    · exact congrArg (_ :: ·) ih

theorem mem_dropUntestedBranches {branches : List (Branch Node)} {c : Branch Node} :
    c ∈ dropUntestedBranches branches ↔
      ∃ b ∈ branches, b.test.isSome = true ∧ c = { b with child := b.child.dropUntested } := by
  rw [dropUntestedBranches_eq]
  simp only [List.mem_map, List.mem_filter, and_assoc, eq_comm]

theorem Node.isSome_test_of_hasBranch_dropUntested {n : Node} {b : Branch Node}
    (h : n.dropUntested.HasBranch b) : b.test.isSome = true := by
  induction n using Node.induct with
  | terminal v => cases h
  | test branches ih =>
    rcases h with hb | ⟨hc, hbehind⟩
    · obtain ⟨_, -, htest, rfl⟩ := mem_dropUntestedBranches.mp hb
      exact htest
    · obtain ⟨kept, hkept, -, rfl⟩ := mem_dropUntestedBranches.mp hc
      exact ih kept hkept hbehind

theorem DecisionTree.allTested_dropUntested (t : DecisionTree) : t.dropUntested.AllTested := by
  intro top b htop hb
  obtain ⟨whole, -, rfl⟩ := Option.map_eq_some_iff.mp htop
  exact Node.isSome_test_of_hasBranch_dropUntested hb

/-! ### What is decided -/

section

variable {options : EvalOptions} {record : Record}

/-- An untested branch says nothing, whatever its slot. -/
theorem Branch.verdict_of_untested {α : Type} {b : Branch α} (h : b.test = none) :
    b.verdict options record = .passOver := by
  rw [verdict, h]
  rfl

theorem Node.decide_dropUntested (n : Node) :
    n.dropUntested.decide options record = n.decide options record := by
  apply induct_branches
    (p := fun n => n.dropUntested.decide options record = n.decide options record)
    (q := fun bs => decideBranches options record (dropUntestedBranches bs) =
      decideBranches options record bs)
  · intro v
    rfl
  · intro branches h
    exact h
  · rfl
  · rintro ⟨attr, slot, _ | test, child⟩ rest hchild hrest
    · -- the branch goes, and is passed over where it stays
      rw [decideBranches_cons, Branch.verdict_of_untested rfl]
      exact hrest
    · simp only [dropUntestedBranches, decideBranches, hchild, hrest]

end

namespace DecisionTree

theorem evaluate_dropUntested_eq (t : DecisionTree) (options : EvalOptions) (record : Record) :
    t.dropUntested.evaluate options record = t.evaluate options record := by
  rcases htop : t.top with _ | top
  · simp only [evaluate, dropUntested, htop, Option.map_none]
  · simp only [evaluate, dropUntested, htop, Option.map_some, Node.decide_dropUntested]

/-- **Untested branches are inert.**  Without them, and without what is behind them, at any depth,
    a tree has the same outcome for all records and options.  What is left is tested throughout,
    so an attribute without a slot is only reported where a branch that tests it decides. -/
theorem evaluate_dropUntested (t : DecisionTree) (options : EvalOptions) (record : Record) :
    t.dropUntested.AllTested ∧
      t.dropUntested.evaluate options record = t.evaluate options record ∧
      ∀ attr, t.evaluate options record = .error (.unboundSlot attr) ↔
        t.dropUntested.EndsAtFault options record attr := by
  refine ⟨t.allTested_dropUntested, t.evaluate_dropUntested_eq options record, ?_⟩
  intro attr
  rw [← evaluate_dropUntested_eq]
  exact evaluate_eq_iff_endsAs

/-- Of two branches the first goes, with a fault behind it, and the other leads to an empty test. -/
example :
    (DecisionTree.mk "state" .integer <| some <| .test
      [⟨⟨2⟩, .unbound, none, .test
          [⟨⟨1⟩, .unbound, some ⟨.eq, .integer 0⟩, .terminal (.integer 0)⟩]⟩,
        ⟨⟨1⟩, .index 0, some ⟨.eq, .integer 0⟩, .test
          [⟨⟨2⟩, .unbound, none, .terminal (.integer 1)⟩]⟩]).dropUntested.top =
      some (.test [⟨⟨1⟩, .index 0, some ⟨.eq, .integer 0⟩, .test []⟩]) := by
  decide

end DecisionTree

end DecisionModel
