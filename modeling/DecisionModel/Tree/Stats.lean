import DecisionModel.Tree.Basic

/-!
# The size of a tree

How many tests, branches and terminals a tree has, and its depth: the number of tests on
the longest way from the top to a terminal or to a test without branches.
-/

namespace DecisionModel

structure TreeStats where
  depth : Nat
  tests : Nat
  branches : Nat
  terminals : Nat
  deriving DecidableEq, Repr

namespace TreeStats

def zero : TreeStats := ⟨0, 0, 0, 0⟩

/-- The numbers of two parts that stand side by side. -/
def beside (a b : TreeStats) : TreeStats :=
  ⟨max a.depth b.depth, a.tests + b.tests, a.branches + b.branches, a.terminals + b.terminals⟩

end TreeStats

mutual

def Node.stats : Node → TreeStats
  | .terminal _ => ⟨0, 0, 0, 1⟩
  | .test branches =>
    let below := statsOfBranches branches
    ⟨below.depth + 1, below.tests + 1, below.branches, below.terminals⟩
termination_by structural n => n

def statsOfBranches : List (Branch Node) → TreeStats
  | [] => .zero
  | ⟨_, _, _, child⟩ :: rest =>
    TreeStats.beside ⟨0, 0, 1, 0⟩ (TreeStats.beside child.stats (statsOfBranches rest))
termination_by structural branches => branches

end

def DecisionTree.stats (t : DecisionTree) : TreeStats :=
  match t.top with
  | some top => top.stats
  | none => .zero

end DecisionModel
